import Thebends.BitrubRoundTrip
import Thebends.YpeerResponse

/-! Peers in six bytes each, as the two clients of trackers read them: `ParseBinaryPeers` of `response.cpp`, and
`peers_from_compact_string` of `get_response.rb`. -/

namespace Thebends.Bitrub

/-- `unpack("n")[0]`. -/
def unpackN : Bytes → Nat
  | a :: b :: _ => a.toNat * 256 + b.toNat
  | _ => 0

/-- A turn of the loop in `peers_from_compact_string`. -/
def hostPort (peers : Bytes) (i : Nat) : Bytes :=
  let start : Int := i * 6
  let peer := slice peers start (start + 5)
  let host := [byte '.'].intercalate ((slice peer 0 3).map fun c => toS c.toNat)
  let port := unpackN (slice peer 4 5)
  host ++ byte ':' :: toS port

/-- `peers_from_compact_string`. -/
def peersFromCompactString (peers : Bytes) : Except Failure (List Bytes) :=
  if peers.length % 6 ≠ 0 then .error .argumentError
  else .ok ((List.range (peers.length / 6)).map (hostPort peers))

end Thebends.Bitrub

namespace Thebends.Ypeer

open LibAscii LibDecimal LibExcept

/-- What six bytes stand for: an address, and a port of which the high byte comes first. -/
def compact : Chars → List Peer
  | a :: b :: c :: d :: high :: low :: rest =>
      ⟨[], inetNtoa [a, b, c, d], some (high.toNat * 256 + low.toNat : Nat)⟩ :: compact rest
  | _ => []

/-- A peer in the form of the other client. -/
def Peer.hostPort (peer : Peer) : Chars := peer.ip ++ byte ':' :: Bitrub.toS (peer.port.getD 0)

/-- Both clients read the same peers, or refuse the string. -/
def ReadsCompact (data : Chars) (peers : List Peer) : Prop :=
  if data.length % 6 = 0 then
    parseBinaryPeers data peers = .ok (true, peers ++ compact data) ∧
      Bitrub.peersFromCompactString data = .ok ((compact data).map Peer.hostPort)
  else
    parseBinaryPeers data peers = .ok (false, peers) ∧
      Bitrub.peersFromCompactString data = .error .argumentError

/-- The high byte of each port is below 128. -/
def LowPorts (data : Chars) : Prop := ∀ i c, i % 6 = 4 → data[i]? = some c → c.toNat < 128

/-! ### The port -/

theorem signed_eq (c : UInt8) : signed c = if c.toNat < 128 then (c.toNat : Int) else c.toNat - 256 := by
  have hvalue : signed c = c.toBitVec.toInt := rfl
  have hnat : c.toBitVec.toNat = c.toNat := rfl
  rw [hvalue, BitVec.toInt_eq_toNat_cond, hnat]
  split_ifs <;> omega

theorem ntohs_eq_iff (high low : UInt8) :
    ntohs (signed low * 2 ^ 8 + signed high) = high.toNat * 256 + low.toNat ↔ high.toNat < 128 := by
  have hhigh := high.toNat_lt
  have hlow := low.toNat_lt
  rw [ntohs, signed_eq, signed_eq]
  split_ifs <;> omega

/-! ### Six bytes at a time -/

theorem binaryPeer_six (a b c d high low : UInt8) (rest : Chars) :
    binaryPeer (a :: b :: c :: d :: high :: low :: rest) 0 =
      ⟨[], inetNtoa [a, b, c, d], some (ntohs (signed low * 2 ^ 8 + signed high))⟩ := rfl

theorem binaryPeer_succ (a b c d high low : UInt8) (rest : Chars) (i : Nat) :
    binaryPeer (a :: b :: c :: d :: high :: low :: rest) (i + 1) = binaryPeer rest i := by
  have hip : (i + 1) * 6 = i * 6 + 6 := Nat.succ_mul i 6
  have hport : (i + 1) * 6 + 4 = i * 6 + 4 + 6 := by omega
  rw [binaryPeer, binaryPeer, hport, hip]
  rfl

theorem length_six (a b c d high low : UInt8) (rest : Chars) :
    (a :: b :: c :: d :: high :: low :: rest).length = rest.length + 6 := rfl

theorem lowPorts_six (a b c d high low : UInt8) (rest : Chars) :
    LowPorts (a :: b :: c :: d :: high :: low :: rest) ↔ high.toNat < 128 ∧ LowPorts rest := by
  constructor
  · intro h
    refine ⟨h 4 high rfl rfl, fun i byte hi hbyte => h (i + 6) byte ?_ hbyte⟩
    rw [Nat.add_mod_right, hi]
  · rintro ⟨hhigh, hrest⟩ i byte hi hbyte
    by_cases hlt : i < 6
    · have heq : i = 4 := by omega
      subst heq
      exact Option.some.inj hbyte ▸ hhigh
    · obtain ⟨j, rfl⟩ := Nat.exists_eq_add_of_le' (Nat.le_of_not_lt hlt)
      rw [Nat.add_mod_right] at hi
      exact hrest j byte hi hbyte

theorem eq_nil_of_short {data : Chars} (h : data.length % 6 = 0)
    (hshort : ∀ a b c d high low rest, data = a :: b :: c :: d :: high :: low :: rest → False) : data = [] := by
  match data with
  | [] => rfl
  | [_] => exact absurd h (Nat.succ_ne_zero 0)
  | [_, _] => exact absurd h (Nat.succ_ne_zero 1)
  | [_, _, _] => exact absurd h (Nat.succ_ne_zero 2)
  | [_, _, _, _] => exact absurd h (Nat.succ_ne_zero 3)
  | [_, _, _, _, _] => exact absurd h (Nat.succ_ne_zero 4)
  | a :: b :: c :: d :: high :: low :: rest => exact absurd rfl (hshort a b c d high low rest)

/-- The peers of the loop are what the bytes stand for just where the ports are low. -/
theorem map_binaryPeer_iff {data : Chars} (h : data.length % 6 = 0) :
    (List.range (data.length / 6)).map (binaryPeer data) = compact data ↔ LowPorts data := by
  induction data using compact.induct with
  | case1 a b c d high low rest ih =>
      rw [length_six] at h ⊢
      have hcount : (rest.length + 6) / 6 = rest.length / 6 + 1 := Nat.add_div_right _ (by decide)
      have hrest := ih (by omega)
      have htail : binaryPeer (a :: b :: c :: d :: high :: low :: rest) ∘ Nat.succ = binaryPeer rest :=
        funext (binaryPeer_succ a b c d high low rest)
      rw [hcount, List.range_succ_eq_map, List.map_cons, List.map_map, htail, compact, binaryPeer_six, List.cons.injEq,
        hrest, lowPorts_six, ← ntohs_eq_iff high low, Peer.mk.injEq, Option.some_inj, Int.natCast_inj]
      simp only [true_and]
  | case2 data hshort =>
      rw [eq_nil_of_short h hshort]
      exact iff_of_true rfl fun i c _ hc => absurd hc (by simp)

/-! ### The loop -/

theorem binaryPeers_ok (data : Chars) (peers : List Peer) {count : Nat} (h : count * 6 ≤ 2 ^ 31) :
    binaryPeers data peers count = .ok (peers ++ (List.range count).map (binaryPeer data)) := by
  induction count with
  | zero => rw [binaryPeers, List.range_zero, List.map_nil, List.append_nil]
  | succ i ih =>
      rw [binaryPeers, ih (by omega), ok_bind, if_pos (by omega), List.range_succ, List.map_append, List.append_assoc]
      rfl

/-- The loop makes a peer in each turn, and no more turns than there are positions. -/
theorem length_binaryPeers {data : Chars} {peers result : List Peer} {count : Nat}
    (h : binaryPeers data peers count = .ok result) : result.length = peers.length + count ∧ count * 6 < 2 ^ 31 + 2 := by
  induction count generalizing result with
  | zero =>
      cases h
      exact ⟨rfl, by decide⟩
  | succ i ih =>
      rw [binaryPeers] at h
      obtain ⟨before, hbefore, h⟩ := bind_eq_ok h
      obtain ⟨hlength, -⟩ := ih hbefore
      split at h
      case isTrue hlt =>
          cases h
          rw [List.length_append, List.length_singleton, hlength]
          omega
      case isFalse => cases h

/-! ### The other client -/

theorem slice_six (before : Chars) (six rest : Chars) (h : six.length = 6) :
    Bitrub.slice (before ++ (six ++ rest)) before.length (before.length + 5) = six := by
  have hslice := Bitrub.slice_append before six rest (by omega)
  have hlast : (before.length : Int) + six.length - 1 = before.length + 5 := by omega
  rwa [hlast] at hslice

/-- A turn that comes to six bytes, whatever is before them and behind them. -/
theorem hostPort_six (before : Chars) (a b c d high low : UInt8) (rest : Chars) {i : Nat} (h : before.length = i * 6) :
    Bitrub.hostPort (before ++ a :: b :: c :: d :: high :: low :: rest) i =
      Peer.hostPort ⟨[], inetNtoa [a, b, c, d], some (high.toNat * 256 + low.toNat : Nat)⟩ := by
  have hslice := slice_six before [a, b, c, d, high, low] rest rfl
  have htoS : (fun c : UInt8 => Bitrub.toS c.toNat) = fun c => numeral c.toNat :=
    funext fun c => Bitrub.toS_natCast c.toNat
  have hhost : Bitrub.slice [a, b, c, d, high, low] 0 3 = [a, b, c, d] := rfl
  have hport : Bitrub.slice [a, b, c, d, high, low] 4 5 = [high, low] := rfl
  have hstart : (i : Int) * 6 = before.length := by omega
  rw [Bitrub.hostPort, hstart]
  rw [List.cons_append, List.cons_append, List.cons_append, List.cons_append, List.cons_append, List.cons_append,
    List.nil_append] at hslice
  rw [hslice, hhost, hport, htoS]
  rfl

/-- The turns from some bytes on. -/
theorem map_hostPort (before rest : Chars) {first : Nat} (hbefore : before.length = first * 6)
    (hrest : rest.length % 6 = 0) :
    (List.range (rest.length / 6)).map (fun i => Bitrub.hostPort (before ++ rest) (first + i)) =
      (compact rest).map Peer.hostPort := by
  induction rest using compact.induct generalizing before first with
  | case1 a b c d high low rest ih =>
      rw [length_six] at hrest ⊢
      have hcount : (rest.length + 6) / 6 = rest.length / 6 + 1 := Nat.add_div_right _ (by decide)
      have hsix : (before ++ [a, b, c, d, high, low]).length = (first + 1) * 6 := by
        rw [List.length_append, hbefore]
        exact (Nat.succ_mul first 6).symm
      have hnext := ih (before ++ [a, b, c, d, high, low]) hsix (by omega)
      rw [List.append_assoc] at hnext
      have hturn : (fun i => Bitrub.hostPort (before ++ a :: b :: c :: d :: high :: low :: rest) (first + i)) ∘ Nat.succ =
          fun i => Bitrub.hostPort (before ++ ([a, b, c, d, high, low] ++ rest)) (first + 1 + i) :=
        funext fun i => by rw [Function.comp_apply, Nat.succ_eq_add_one, Nat.add_comm i 1, Nat.add_assoc]; rfl
      rw [hcount, List.range_succ_eq_map, List.map_cons, List.map_map, compact, List.map_cons, hturn, hnext, Nat.add_zero,
        hostPort_six before a b c d high low rest hbefore]
  | case2 rest hshort =>
      rw [eq_nil_of_short hrest hshort]
      rfl

theorem peersFromCompactString_ok {data : Chars} (h : data.length % 6 = 0) :
    Bitrub.peersFromCompactString data = .ok ((compact data).map Peer.hostPort) := by
  have hall := map_hostPort [] data (Nat.zero_mul 6).symm h
  simp only [Nat.zero_add, List.nil_append] at hall
  rw [Bitrub.peersFromCompactString, if_neg (not_not_intro h)]
  exact congrArg Except.ok hall

theorem length_compact {data : Chars} (h : data.length % 6 = 0) : (compact data).length = data.length / 6 := by
  have hall := congrArg List.length (map_hostPort [] data (Nat.zero_mul 6).symm h)
  rw [List.length_map, List.length_range, List.length_map] at hall
  exact hall.symm

/-! ### Both -/

theorem ok_append_iff {peers read expected : List Peer} :
    (.ok (true, peers ++ read) : Except Fault (Bool × List Peer)) = .ok (true, peers ++ expected) ↔ read = expected := by
  rw [Except.ok.injEq, Prod.mk.injEq, and_iff_right rfl, List.append_cancel_left_eq]

theorem parseBinaryPeers_ok {data : Chars} (h : data.length % 6 = 0) (hlt : data.length < 2 ^ 31) (peers : List Peer) :
    parseBinaryPeers data peers = .ok (true, peers ++ (List.range (data.length / 6)).map (binaryPeer data)) := by
  have hcount : Int.bmod (data.length / 6 : Nat) (2 ^ 32) = (data.length / 6 : Nat) :=
    Int.bmod_eq_of_le (by omega) (by omega)
  rw [parseBinaryPeers, if_neg (not_not_intro h)]
  dsimp only
  rw [hcount, Int.toNat_natCast, binaryPeers_ok data peers (by omega), ok_bind]
  rfl

theorem parseBinaryPeers_iff {data : Chars} (h : data.length % 6 = 0) (peers : List Peer) :
    parseBinaryPeers data peers = .ok (true, peers ++ compact data) ↔ data.length < 2 ^ 31 ∧ LowPorts data := by
  by_cases hlt : data.length < 2 ^ 31
  · rw [parseBinaryPeers_ok h hlt, and_iff_right hlt, ← map_binaryPeer_iff h]
    exact ok_append_iff
  · rw [parseBinaryPeers, if_neg (not_not_intro h)]
    refine iff_of_false (fun hok => ?_) fun hboth => hlt hboth.1
    obtain ⟨result, hresult, hok⟩ := bind_eq_ok hok
    obtain ⟨hlength, hbound⟩ := length_binaryPeers hresult
    have hsame : result = peers ++ compact data := (Prod.mk.inj (Except.ok.inj hok)).2
    rw [hsame, List.length_append, length_compact h] at hlength
    omega

/-- **When both clients read the same peers**: just where the high byte of each port is below 128, and the positions of
the string are of type `int`. A string whose length is no multiple of six is refused always. -/
theorem readsCompact_iff (data : Chars) (peers : List Peer) :
    ReadsCompact data peers ↔ (data.length % 6 = 0 → data.length < 2 ^ 31 ∧ LowPorts data) := by
  rw [ReadsCompact]
  split
  case isTrue h =>
      rw [parseBinaryPeers_iff h, and_iff_left (peersFromCompactString_ok h), forall_prop_of_true h]
  case isFalse h => exact iff_of_true ⟨if_pos h, if_pos h⟩ fun h' => absurd h' h

/-- The port 32769, which is read as 32768. -/
theorem highPort_misread :
    parseBinaryPeers [10, 0, 0, 1, 128, 1] [] = .ok (true, [⟨[], ascii "10.0.0.1", some 32768⟩]) ∧
      ¬ReadsCompact [10, 0, 0, 1, 128, 1] [] := by
  refine ⟨by rfl, fun h => ?_⟩
  have hsix : [10, 0, 0, 1, 128, (1 : UInt8)].length % 6 = 0 := rfl
  rw [ReadsCompact, if_pos hsix] at h
  have hlow := ((parseBinaryPeers_iff hsix []).mp h.1).2
  exact absurd (hlow 4 128 rfl rfl) (Nat.lt_irrefl 128)

end Thebends.Ypeer
