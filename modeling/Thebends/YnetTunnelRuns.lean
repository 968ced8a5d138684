import Thebends.YnetTunnel

/-! Runs of the forwarding of connections: every byte a connection brings in goes out on the other side, once and in
order, whatever the order of the callbacks and however descriptors are used again. -/

namespace Thebends.Ynet

open LibSockets LibRun

namespace TcpTunnel

section

variable {t : TcpTunnel}

/-! ### Bytes -/

/-- What was written to a socket is what was read from its partner; of a connection that is closed, perhaps not all. -/
structure Relays (s : Sockets) : Prop where
  sent_begins : ∀ i j, Partners s i j → (s.socket j).sent <+: (s.socket i).received
  sent_eq : ∀ i j, Partners s i j → s.IsOpen i → (s.socket j).sent = (s.socket i).received

/-- Some bytes were read from one socket, and the first ones of them written to another. -/
structure Carried (s s' : Sockets) (i j : Nat) (data : Bytes) (count : Nat) : Prop where
  next : s'.next = s.next
  origin : ∀ k, (s'.socket k).origin = (s.socket k).origin
  received : ∀ k, (s'.socket k).received = if k = i then (s.socket k).received ++ data else (s.socket k).received
  sent : ∀ k, (s'.socket k).sent = if k = j then (s.socket k).sent ++ data.take count else (s.socket k).sent

theorem carried_nothing {s s' : Sockets} (hsocket : s'.socket = s.socket) (hnext : s'.next = s.next) (i j : Nat) :
    Carried s s' i j [] 0 := by
  constructor
  · exact hnext
  · intro k
    rw [hsocket]
  · intro k
    rw [hsocket, List.append_nil, ite_self]
  · intro k
    rw [hsocket, List.take_nil, List.append_nil, ite_self]

theorem carried_received {s : Sockets} {fd : Fd} {i : Nat} (hi : s.table fd = some i) (data : Bytes) (j : Nat) :
    Carried s (s.receive fd data) i j data 0 := by
  have hsocket := Sockets.socket_modify hi fun socket => { socket with received := socket.received ++ data }
  constructor
  · exact Sockets.next_modify _ _ _
  · intro k
    rw [Sockets.receive, hsocket]
    split
    case isTrue hk => rw [hk]
    case isFalse => rfl
  · intro k
    rw [Sockets.receive, hsocket]
    split
    case isTrue hk => rw [hk]
    case isFalse => rfl
  · intro k
    rw [Sockets.receive, hsocket, List.take_zero, List.append_nil, ite_self]
    split
    case isTrue hk => rw [hk]
    case isFalse => rfl

theorem Carried.send {s s' : Sockets} {i j : Nat} {data : Bytes} (h : Carried s s' i j data 0) {fd : Fd}
    (hj : s'.table fd = some j) (count : Nat) : Carried s (s'.send fd (data.take count)) i j data count := by
  have hsocket := Sockets.socket_modify hj fun socket => { socket with sent := socket.sent ++ data.take count }
  constructor
  · exact (Sockets.next_modify _ _ _).trans h.next
  · intro k
    rw [Sockets.send, hsocket, ← h.origin]
    split
    case isTrue hk => rw [hk]
    case isFalse => rfl
  · intro k
    rw [Sockets.send, hsocket, ← h.received]
    split
    case isTrue hk => rw [hk]
    case isFalse => rfl
  · intro k
    have hsent := h.sent k
    rw [List.take_zero, List.append_nil, ite_self] at hsent
    rw [Sockets.send, hsocket, ← hsent]
    split
    case isTrue hk => rw [hk]
    case isFalse => rfl

section

variable {s s' : Sockets} {i j : Nat} {data : Bytes} {count : Nat}

/-- The bytes of each direction, where all that was read was also written. -/
theorem Carried.kept (h : Carried s s' i j data count) (hij : Partners s i j) (hall : data.length ≤ count) {k l : Nat}
    (hkl : Partners s k l) (heq : (s.socket l).sent = (s.socket k).received) :
    (s'.socket l).sent = (s'.socket k).received := by
  rw [h.sent, h.received, heq, List.take_of_length_le hall]
  by_cases hk : k = i
  · rw [if_pos hk, if_pos (Partners.unique hkl (hk ▸ hij))]
  · rw [if_neg hk, if_neg fun hl : l = j => hk (Partners.unique hkl.symm (hl ▸ hij.symm))]

theorem Carried.sent_begins (h : Carried s s' i j data count) (hrelays : Relays s) (hij : Partners s i j)
    (hopen : s.IsOpen i) (k l : Nat) (hkl : Partners s' k l) : (s'.socket l).sent <+: (s'.socket k).received := by
  rw [partners_congr h.next h.origin] at hkl
  rw [h.sent, h.received]
  by_cases hk : k = i
  · subst hk
    obtain rfl := Partners.unique hkl hij
    rw [if_pos rfl, if_pos rfl, hrelays.sent_eq k l hkl hopen, List.prefix_append_right_inj]
    exact List.take_prefix count data
  · rw [if_neg hk, if_neg fun hl : l = j => hk (Partners.unique hkl.symm (hl ▸ hij.symm))]
    exact hrelays.sent_begins k l hkl

end

/-! ### Why the process ends -/

/-- The answer of a system call that ends the process. -/
inductive Failed : Happening → Fault → Prop
  | start {failed : Option String} : Failed (.start none failed) (.exit "socket()")
  | listen {fd : Fd} {message : String} : Failed (.start (some fd) (some message)) (.exit message)
  | accept {fd : Fd} {answers : Answers} : answers.accept = none → Failed (.ready fd answers) (.exit "accept")
  | socket {fd : Fd} {answers : Answers} : answers.socket = none → Failed (.ready fd answers) (.exit "socket()")
  | connect {fd : Fd} {answers : Answers} : answers.connect = false → Failed (.ready fd answers) (.exit "connect()")
  | read {fd : Fd} {answers : Answers} : answers.read = none → Failed (.ready fd answers) (.exit s!"read() ({fd})")
  | write {fd other : Fd} {answers : Answers} :
      .failed ∈ answers.write → Failed (.ready fd answers) (.exit s!"write() ({other})")
  | short {fd : Fd} {answers : Answers} {buf : Bytes} {count : Nat} : answers.read = some buf →
      .wrote count ∈ answers.write → 0 < count → count < buf.length → Failed (.ready fd answers) .assertion
  | endless {fd : Fd} {answers : Answers} : (∀ answer ∈ answers.write, answer = .eagain) →
      Failed (.ready fd answers) .endless

theorem tryAgain_cases (t : TcpTunnel) (sock sockPair : Fd) (buf : Bytes) (answers : List Outcome) :
    ((∀ answer ∈ answers, answer = .eagain) ∧ t.tryAgain sock sockPair buf answers = .error (.endless, t)) ∨
      (.failed ∈ answers ∧ t.tryAgain sock sockPair buf answers = .error (.exit s!"write() ({sockPair})", t)) ∨
      ∃ count, .wrote count ∈ answers ∧
        t.tryAgain sock sockPair buf answers = t.tryAgain sock sockPair buf [.wrote count] := by
  induction answers with
  | nil => exact Or.inl ⟨by simp, rfl⟩
  | cons answer answers ih =>
      cases answer with
      | wrote count => exact Or.inr (Or.inr ⟨count, List.mem_cons_self, rfl⟩)
      | failed => exact Or.inr (Or.inl ⟨List.mem_cons_self, rfl⟩)
      | eagain =>
          rcases ih with ⟨hall, htry⟩ | ⟨hmem, htry⟩ | ⟨count, hmem, htry⟩
          · exact Or.inl ⟨List.forall_mem_cons.mpr ⟨rfl, hall⟩, htry⟩
          · exact Or.inr (Or.inl ⟨List.mem_cons_of_mem _ hmem, htry⟩)
          · exact Or.inr (Or.inr ⟨count, List.mem_cons_of_mem _ hmem, htry⟩)

/-! ### Callbacks -/

/-- What `Read` does with some bytes: the process goes on, and all of them were written or the connection is closed;
or it ends. -/
def Reads (t : TcpTunnel) (happening : Happening) (zero : Prop) (i j : Nat) (result : Except Halt TcpTunnel) : Prop :=
  ∃ data count,
    (∃ t', result = .ok t' ∧ t'.Paired ∧ Carried t.sockets t'.sockets i j data count ∧
      (∀ k, t'.sockets.IsOpen k → t.sockets.IsOpen k) ∧
      (data.length ≤ count ∨ (¬t'.sockets.IsOpen i ∧ ¬t'.sockets.IsOpen j ∧ zero))) ∨
    ∃ fault t', result = .error (fault, t') ∧ Failed happening fault ∧ Carried t.sockets t'.sockets i j data count

theorem Paired.read (h : t.Paired) {fd other : Fd} (hpair : t.pairs fd = some other) (answers : Answers) :
    ∃ i j, Partners t.sockets i j ∧ t.sockets.IsOpen i ∧
      t.Reads (.ready fd answers) (.wrote 0 ∈ answers.write) i j (t.read fd answers) := by
  obtain ⟨i, j, hij, hi, hj⟩ := (h.pairs fd other).mp hpair
  refine ⟨i, j, hij, ⟨fd, hi⟩, ?_⟩
  cases hread : answers.read with
  | none =>
      refine ⟨[], 0, Or.inr ⟨_, t, ?_, .read hread, carried_nothing rfl rfl i j⟩⟩
      rw [TcpTunnel.read, hpair]
      dsimp only
      rw [hread]
  | some buf =>
      cases buf with
      | nil =>
          obtain ⟨t', hclose, hpaired, hsocket, hnext, hopen⟩ := h.close_both hpair hij hi hj
          have hcall : t.read fd answers = t.close fd >>= fun t => t.close other := by
            rw [TcpTunnel.read, hpair]
            dsimp only
            rw [hread]
          rw [← hcall] at hclose
          exact ⟨[], 0, Or.inl ⟨t', hclose, hpaired, carried_nothing hsocket hnext i j, fun k hk => ((hopen k).mp hk).2.2,
            Or.inl (Nat.le_refl 0)⟩⟩
      | cons c buf =>
          have hcall : t.read fd answers =
              tryAgain { t with sockets := t.sockets.receive fd (c :: buf) } fd other (c :: buf) answers.write := by
            rw [TcpTunnel.read, hpair]
            dsimp only
            rw [hread]
          generalize hbuf : c :: buf = data at hcall hread
          rw [hcall]
          have hpos : 0 < data.length := by rw [← hbuf]; exact Nat.succ_pos _
          have hgot := carried_received hi data j
          have htable : (t.sockets.receive fd data).table = t.sockets.table := Sockets.table_modify _ _ _
          have hj' : (t.sockets.receive fd data).table other = some j := by rw [htable, hj]
          rcases tryAgain_cases { t with sockets := t.sockets.receive fd data } fd other data answers.write with
            ⟨hall, htry⟩ | ⟨hmem, htry⟩ | ⟨count, hmem, htry⟩
          · exact ⟨data, 0, Or.inr ⟨_, _, htry, .endless hall, hgot⟩⟩
          · exact ⟨data, 0, Or.inr ⟨_, _, htry, .write hmem, hgot⟩⟩
          · have hsent := hgot.send hj' count
            have htable' : ((t.sockets.receive fd data).send other (data.take count)).table = t.sockets.table :=
              (Sockets.table_modify _ _ _).trans htable
            have hpaired : Paired { t with sockets := (t.sockets.receive fd data).send other (data.take count) } :=
              h.of_moved hsent.next htable' hsent.origin
            have hstays : ∀ k, ((t.sockets.receive fd data).send other (data.take count)).IsOpen k → t.sockets.IsOpen k := by
              intro k hk
              rw [Sockets.IsOpen, htable'] at hk
              exact hk
            rw [htry, tryAgain]
            refine ⟨data, count, ?_⟩
            by_cases hzero : min count data.length = 0
            · obtain rfl : count = 0 := by omega
              obtain ⟨t', hclose, hpaired', hsocket, hnext, hopen⟩ := hpaired.close_both hpair
                ((partners_congr hsent.next hsent.origin i j).mpr hij) (by rw [htable', hi]) (by rw [htable', hj])
              refine Or.inl ⟨t', by rw [if_pos hzero]; exact hclose, hpaired', ?_, ?_, Or.inr ⟨?_, ?_, hmem⟩⟩
              · exact ⟨hnext.trans hsent.next, by rw [hsocket]; exact hsent.origin, by rw [hsocket]; exact hsent.received,
                  by rw [hsocket]; exact hsent.sent⟩
              · exact fun k hk => hstays k ((hopen k).mp hk).2.2
              · exact fun hi' => ((hopen i).mp hi').2.1 rfl
              · exact fun hj' => ((hopen j).mp hj').1 rfl
            · by_cases hwhole : min count data.length = data.length
              · exact Or.inl ⟨_, by rw [if_neg hzero, if_pos hwhole], hpaired, hsent, hstays, Or.inl (by omega)⟩
              · refine Or.inr ⟨_, _, by rw [if_neg hzero, if_neg hwhole], ?_, hsent⟩
                exact .short hread hmem (by omega) (by omega)

/-! ### Connections that come -/

/-- The streams of a connection have not changed, or the connection is new. -/
def Unmoved (s s' : Sockets) : Prop :=
  ∀ i j, Partners s' i j →
    (Partners s i j ∧ s'.socket i = s.socket i ∧ s'.socket j = s.socket j ∧ (s'.IsOpen i → s.IsOpen i)) ∨
      ((s'.socket j).sent = [] ∧ (s'.socket i).received = [])

theorem unmoved_make {s : Sockets} (h : ∀ i < s.next, (s.socket i).origin = .accepted → i + 1 < s.next) {fd : Fd}
    (hfree : s.table fd = none) (origin : Origin) : Unmoved s (s.make fd origin) := by
  intro i j hij
  rw [partners_make h] at hij
  have hi := hij.1
  have hj := hij.2.1
  refine Or.inl ⟨hij, ?_, ?_, fun hopen => ?_⟩
  · rw [Sockets.socket_make, if_neg (by omega)]
  · rw [Sockets.socket_make, if_neg (by omega)]
  · exact ((Sockets.isOpen_make hfree origin i).mp hopen).resolve_left (by omega)

theorem unmoved_make_both {s : Sockets} {client remote : Fd} (hclient : s.table client = none)
    (hremote : (s.make client .accepted).table remote = none) :
    Unmoved s ((s.make client .accepted).make remote .connected) := by
  have hsocket : ∀ k, k ≠ s.next → k ≠ s.next + 1 →
      ((s.make client .accepted).make remote .connected).socket k = s.socket k := by
    intro k hk hk'
    rw [Sockets.socket_make, Sockets.next_make, if_neg hk', Sockets.socket_make, if_neg hk]
  have hfresh : ∀ k, k = s.next ∨ k = s.next + 1 →
      (((s.make client .accepted).make remote .connected).socket k).sent = [] ∧
        (((s.make client .accepted).make remote .connected).socket k).received = [] := by
    rintro k (rfl | rfl)
    · rw [Sockets.socket_make, Sockets.next_make, if_neg (Nat.ne_of_lt (Nat.lt_succ_self _)), Sockets.socket_make,
        if_pos rfl]
      exact ⟨rfl, rfl⟩
    · rw [Sockets.socket_make, Sockets.next_make, if_pos rfl]
      exact ⟨rfl, rfl⟩
  intro i j hij
  rcases (partners_make_both client remote i j).mp hij with hold | ⟨rfl, rfl⟩ | ⟨rfl, rfl⟩
  · have hi := hold.1
    have hj := hold.2.1
    refine Or.inl ⟨hold, hsocket i (by omega) (by omega), hsocket j (by omega) (by omega), fun hopen => ?_⟩
    rw [Sockets.isOpen_make hremote, Sockets.isOpen_make hclient] at hopen
    exact (hopen.resolve_left (show i ≠ s.next + 1 by omega)).resolve_left (by omega)
  · exact Or.inr ⟨(hfresh _ (Or.inr rfl)).1, (hfresh _ (Or.inl rfl)).2⟩
  · exact Or.inr ⟨(hfresh _ (Or.inl rfl)).1, (hfresh _ (Or.inr rfl)).2⟩

theorem unmoved_refl (s : Sockets) : Unmoved s s := fun _ _ hij => Or.inl ⟨hij, rfl, rfl, fun hi => hi⟩

theorem unmoved_close {s : Sockets} (h : s.WellFormed) {fd closed : Nat} (hclosed : s.table fd = some closed) :
    Unmoved s (s.close fd) :=
  fun i _ hij => Or.inl ⟨hij, rfl, rfl, fun hi => ((Sockets.isOpen_close h hclosed i).mp hi).2⟩

theorem Unmoved.trans {s s' s'' : Sockets} (h : Unmoved s s') (h' : Unmoved s' s'') : Unmoved s s'' := by
  intro i j hij
  rcases h' i j hij with ⟨hold, hi, hj, hopen⟩ | hnew
  · rcases h i j hold with ⟨hold', hi', hj', hopen'⟩ | ⟨hsent, hreceived⟩
    · exact Or.inl ⟨hold', hi.trans hi', hj.trans hj', fun hk => hopen' (hopen hk)⟩
    · exact Or.inr ⟨by rw [hj, hsent], by rw [hi, hreceived]⟩
  · exact Or.inr hnew

theorem Unmoved.relays {s s' : Sockets} (h : Unmoved s s') (hrelays : Relays s) : Relays s' where
  sent_begins := by
    intro i j hij
    rcases h i j hij with ⟨hold, hi, hj, -⟩ | ⟨hsent, hreceived⟩
    · rw [hi, hj]
      exact hrelays.sent_begins i j hold
    · rw [hsent]
      exact List.nil_prefix
  sent_eq := by
    intro i j hij hopen
    rcases h i j hij with ⟨hold, hi, hj, hopen'⟩ | ⟨hsent, hreceived⟩
    · rw [hi, hj]
      exact hrelays.sent_eq i j hold (hopen' hopen)
    · rw [hsent, hreceived]

/-- All of every connection. -/
def Whole (s : Sockets) : Prop := ∀ i j, Partners s i j → (s.socket j).sent = (s.socket i).received

theorem Unmoved.whole {s s' : Sockets} (h : Unmoved s s') (hwhole : Whole s) : Whole s' := by
  intro i j hij
  rcases h i j hij with ⟨hold, hi, hj, -⟩ | ⟨hsent, hreceived⟩
  · rw [hi, hj]
    exact hwhole i j hold
  · rw [hsent, hreceived]

/-- Nothing was taken by `write` without being an error. -/
def Happening.NoZero : Happening → Prop
  | .ready _ answers => .wrote 0 ∉ answers.write
  | _ => True

/-- A client is accepted: there are both sockets of its connection and nothing else changes, or the process ends. -/
theorem Paired.accept (h : t.Paired) {fd : Fd} (hfd : t.sock = some fd) {answers : Answers}
    (hpossible : t.Possible (.ready fd answers)) :
    (∃ t', t.accept fd answers = .ok t' ∧ t'.Paired ∧ Unmoved t.sockets t'.sockets) ∨
      ∃ fault t', t.accept fd answers = .error (fault, t') ∧ Failed (.ready fd answers) fault ∧
        Unmoved t.sockets t'.sockets := by
  obtain ⟨hclients, hremotes⟩ := hpossible
  rw [TcpTunnel.accept, if_neg (not_not_intro hfd)]
  cases haccept : answers.accept with
  | none => exact Or.inr ⟨_, t, rfl, .accept haccept, unmoved_refl _⟩
  | some client =>
      have hclient := hclients client haccept
      obtain ⟨-, hnone, -, hlookup⟩ := h.free hclient
      dsimp only
      rw [clientConnected, hnone, if_neg (by simp)]
      cases hsocket : answers.socket with
      | none =>
          have hmade := unmoved_make h.next_accepted hclient .accepted
          have hwell := h.wellFormed.make client .accepted
          have htable : (t.sockets.make client .accepted).table client = some t.sockets.next := by
            rw [Sockets.table_make, if_pos rfl]
          exact Or.inr ⟨_, _, rfl, .socket hsocket, hmade.trans (unmoved_close hwell htable)⟩
      | some remote =>
          obtain ⟨hremote, hne⟩ := hremotes remote hsocket
          rw [haccept, Ne, Option.some.injEq] at hne
          have hfree : (t.sockets.make client .accepted).table remote = none := by
            rw [Sockets.table_make, if_neg (Ne.symm hne), hremote]
          have hmade := unmoved_make_both hclient hfree
          cases hconnect : answers.connect with
          | false => exact Or.inr ⟨_, _, rfl, .connect hconnect, hmade⟩
          | true =>
              obtain ⟨-, -, -, hlookup'⟩ := h.free hremote
              obtain ⟨select, hadd, hselect⟩ := addReadFd_ok (t :=
                { t with sockets := (t.sockets.make client .accepted).make remote .connected }) hlookup readCallback
              have hfresh : select.read.callbacks.lookup remote = none := by
                rw [hselect, if_neg (Ne.symm hne), hlookup']
              obtain ⟨select', hadd', hselect'⟩ := addReadFd_ok (t :=
                { t with select := select, sockets := (t.sockets.make client .accepted).make remote .connected }) hfresh
                readCallback
              have hpaired := h.made hclient hremote hne fun other => by rw [hselect', hselect]
              exact Or.inl ⟨_, LibExcept.bind_ok hadd (LibExcept.bind_ok hadd' rfl), hpaired, hmade⟩

/-! ### Runs -/

/-- What one happening does to a tunnel. -/
structure Goes (t t' : TcpTunnel) (happening : Happening) : Prop where
  paired : t'.Paired
  relays : Relays t'.sockets
  whole : Whole t.sockets → happening.NoZero → Whole t'.sockets

theorem Unmoved.goes {t' : TcpTunnel} (h : Unmoved t.sockets t'.sockets) (hrelays : Relays t.sockets) (hpaired : t'.Paired)
    (happening : Happening) : t.Goes t' happening := ⟨hpaired, h.relays hrelays, fun hwhole _ => h.whole hwhole⟩

theorem perform_goes (h : t.Paired) (hrelays : Relays t.sockets) {happening : Happening}
    (hpossible : t.Possible happening) :
    (∃ t', t.perform happening = .ok t' ∧ t.Goes t' happening) ∨
      ∃ fault t', t.perform happening = .error (fault, t') ∧ Failed happening fault ∧
        ∀ i j, Partners t'.sockets i j → (t'.sockets.socket j).sent <+: (t'.sockets.socket i).received := by
  cases happening with
  | start socket failed =>
      obtain ⟨hsock, hfresh⟩ := hpossible
      cases socket with
      | none => exact Or.inr ⟨_, t, rfl, .start, hrelays.sent_begins⟩
      | some fd =>
          have hfree := hfresh fd rfl
          have hmoved := unmoved_make h.next_accepted hfree .listening
          cases failed with
          | some message => exact Or.inr ⟨_, _, rfl, .listen, (hmoved.relays hrelays).sent_begins⟩
          | none =>
              obtain ⟨-, -, -, hlookup⟩ := h.free hfree
              obtain ⟨select, hadd, hselect⟩ := addReadFd_ok (t :=
                { t with sockets := t.sockets.make fd .listening, sock := some fd }) hlookup acceptCallback
              exact Or.inl ⟨_, hadd, Unmoved.goes hmoved hrelays (h.started hsock hfree hselect) _⟩
  | stop =>
      cases hsock : t.sock with
      | none => exact Or.inl ⟨t, by rw [perform, stop, hsock], (unmoved_refl _).goes hrelays h _⟩
      | some fd =>
          have hlookup : t.select.read.callbacks.lookup fd = some acceptCallback := by
            rw [h.watched, if_pos hsock]
          obtain ⟨server, hserver, -⟩ := h.listening fd hsock
          obtain ⟨select, hremove, hselect⟩ := removeReadFd_ok hlookup
          refine Or.inl ⟨_, ?_, Unmoved.goes (unmoved_close h.wellFormed hserver) hrelays (h.stopped hsock hselect) _⟩
          rw [perform, stop, hsock]
          exact LibExcept.bind_ok hremove rfl
  | ready fd answers =>
      by_cases hsock : t.sock = some fd
      · have hlookup : t.select.read.callbacks.lookup fd = some acceptCallback := by
          rw [h.watched, if_pos hsock]
        have hperform : t.perform (.ready fd answers) = t.accept fd answers := by
          rw [perform, hlookup]
          exact if_pos rfl
        rw [hperform]
        rcases h.accept hsock hpossible with ⟨t', haccept, hpaired, hmoved⟩ | ⟨fault, t', haccept, hfailed, hmoved⟩
        · exact Or.inl ⟨t', haccept, hmoved.goes hrelays hpaired _⟩
        · exact Or.inr ⟨fault, t', haccept, hfailed, (hmoved.relays hrelays).sent_begins⟩
      · cases hpair : t.pairs fd with
        | none =>
            refine Or.inl ⟨t, ?_, (unmoved_refl _).goes hrelays h _⟩
            rw [perform, h.watched, if_neg hsock, hpair]
            rfl
        | some other =>
            have hperform : t.perform (.ready fd answers) = t.read fd answers := by
              rw [perform, h.lookup hpair]
              exact if_neg (by decide)
            rw [hperform]
            obtain ⟨i, j, hij, hi, data, count, hresult⟩ := h.read hpair answers
            rcases hresult with ⟨t', hread, hpaired, hcarried, hopen, hall⟩ | ⟨fault, t', hread, hfailed, hcarried⟩
            · refine Or.inl ⟨t', hread, hpaired, ⟨hcarried.sent_begins hrelays hij hi, ?_⟩, ?_⟩
              · intro k l hkl hk
                rw [partners_congr hcarried.next hcarried.origin] at hkl
                have hold := hrelays.sent_eq k l hkl (hopen k hk)
                rcases hall with hall | ⟨hclosed, -, -⟩
                · exact hcarried.kept hij hall hkl hold
                · have hki : k ≠ i := fun heq => hclosed (heq ▸ hk)
                  have hlj : l ≠ j := fun heq => hki (Partners.unique (Partners.symm hkl) (heq ▸ hij.symm))
                  rw [hcarried.sent, hcarried.received, if_neg hki, if_neg hlj, hold]
              · intro hwhole hzero k l hkl
                rw [partners_congr hcarried.next hcarried.origin] at hkl
                rcases hall with hall | ⟨-, -, hwrote⟩
                · exact hcarried.kept hij hall hkl (hwhole k l hkl)
                · exact absurd hwrote hzero
            · exact Or.inr ⟨fault, t', hread, hfailed, hcarried.sent_begins hrelays hij hi⟩

theorem goes_run {happenings : List Happening} (h : Run Step new happenings t) :
    t.Paired ∧ Relays t.sockets ∧ ((∀ happening ∈ happenings, happening.NoZero) → Whole t.sockets) := by
  refine h.invariant (fun happenings t =>
    t.Paired ∧ Relays t.sockets ∧ ((∀ happening ∈ happenings, happening.NoZero) → Whole t.sockets)) ?_ ?_
  · have hnobody : ∀ i j, ¬Partners new.sockets i j := fun i j hij => absurd hij.1 (Nat.not_lt_zero i)
    exact ⟨paired_new, ⟨fun i j hij => absurd hij (hnobody i j), fun i j hij => absurd hij (hnobody i j)⟩,
      fun _ i j hij => absurd hij (hnobody i j)⟩
  · rintro happenings before happening after - ⟨hpaired, hrelays, hwhole⟩ ⟨hpossible, hperform⟩
    rcases perform_goes hpaired hrelays hpossible with ⟨t', hok, hgoes⟩ | ⟨fault, t', herror, -⟩
    · rw [hperform] at hok
      cases hok
      refine ⟨hgoes.paired, hgoes.relays, fun hall => ?_⟩
      rw [List.forall_mem_append, List.forall_mem_singleton] at hall
      exact hgoes.whole (hwhole hall.1) hall.2
    · rw [hperform] at herror
      cases herror

/-- **The tunnel relays every connection by itself.** In every run, whatever descriptors are used again: every socket
of a connection has one partner; the two are closed together; what was written to one is the first part of what was
read from the other, and all of it as long as they are open, or for ever if no `write` ever took nothing. The process
ends only by the answer of a system call, and then too nothing was written to a socket but what its partner had sent. -/
theorem tunnel_relays (happenings : List Happening) (t : TcpTunnel) (h : Run Step new happenings t) :
    (∀ i < t.sockets.next, (t.sockets.socket i).origin ≠ .listening → ∃ j, Partners t.sockets i j) ∧
    (∀ i j, Partners t.sockets i j → (t.sockets.IsOpen i ↔ t.sockets.IsOpen j) ∧
      (t.sockets.socket j).sent <+: (t.sockets.socket i).received ∧
      (t.sockets.IsOpen i ∨ (∀ happening ∈ happenings, happening.NoZero) →
        (t.sockets.socket j).sent = (t.sockets.socket i).received)) ∧
    ∀ happening fault t', t.Possible happening → t.perform happening = .error (fault, t') →
      Failed happening fault ∧
        ∀ i j, Partners t'.sockets i j → (t'.sockets.socket j).sent <+: (t'.sockets.socket i).received := by
  obtain ⟨hpaired, hrelays, hwhole⟩ := goes_run h
  refine ⟨fun i hi horigin => ?_, fun i j hij => ⟨?_, hrelays.sent_begins i j hij, ?_⟩, ?_⟩
  · cases hsocket : (t.sockets.socket i).origin with
    | listening => exact absurd hsocket horigin
    | accepted =>
        obtain ⟨hnext, hconnected⟩ := hpaired.accepted i hi hsocket
        exact ⟨i + 1, hi, hnext, Or.inl ⟨hsocket, hconnected, rfl⟩⟩
    | connected =>
        obtain ⟨j, rfl, haccepted⟩ := hpaired.connected i hi hsocket
        exact ⟨j, hi, Nat.lt_of_succ_lt hi, Or.inr ⟨haccepted, hsocket, rfl⟩⟩
  · exact ⟨hpaired.together i j hij, hpaired.together j i hij.symm⟩
  · rintro (hopen | hall)
    · exact hrelays.sent_eq i j hij hopen
    · exact hwhole hall i j hij
  · intro happening fault t' hpossible hperform
    rcases perform_goes hpaired hrelays hpossible with ⟨t'', hok, -⟩ | ⟨fault', t'', herror, hfailed, hprefix⟩
    · rw [hperform] at hok
      cases hok
    · rw [hperform] at herror
      cases herror
      exact ⟨hfailed, hprefix⟩

/-- Calls that all succeed, of which `read` returns some bytes. -/
def answering (data : Bytes) : Answers := ⟨some 5, some 6, true, some data, [.eagain, .wrote data.length]⟩

theorem possible_answering {fd : Fd} {data : Bytes} (hclient : t.sockets.table 5 = none) (hremote : t.sockets.table 6 = none) :
    t.Possible (.ready fd (answering data)) := by
  constructor
  · rintro client ⟨⟩
    exact hclient
  · rintro remote ⟨⟩
    exact ⟨hremote, by simp [answering]⟩

/-- What `read` and `write` answer. -/
def passing (data : Bytes) : Answers := ⟨none, none, false, some data, [.eagain, .wrote data.length]⟩

theorem possible_passing (fd : Fd) (data : Bytes) : t.Possible (.ready fd (passing data)) := by
  constructor
  · rintro client ⟨⟩
  · rintro remote ⟨⟩

/-- A client is accepted, sends something and closes, and another client gets the same descriptors. -/
def twoClients : List Happening :=
  [.start (some 4) none, .ready 4 (answering []), .ready 5 (passing [1, 2]), .ready 5 (passing []),
    .ready 4 (answering []), .ready 6 (passing [9])]

theorem tunnel_relays_twoClients : ∃ t, Run Step new twoClients t ∧ (t.sockets.socket 2).sent = [1, 2] ∧
    (t.sockets.socket 3).sent = [9] ∧
    ((t.sockets.IsOpen 4 ∨ ∀ happening ∈ twoClients, happening.NoZero) →
      (t.sockets.socket 3).sent = (t.sockets.socket 4).received) := by
  have hsteps : ∃ t₁, Step new (.start (some 4) none) t₁ ∧ ∃ t₂, Step t₁ (.ready 4 (answering [])) t₂ ∧
      ∃ t₃, Step t₂ (.ready 5 (passing [1, 2])) t₃ ∧ ∃ t₄, Step t₃ (.ready 5 (passing [])) t₄ ∧
      ∃ t₅, Step t₄ (.ready 4 (answering [])) t₅ ∧ ∃ t₆, Step t₅ (.ready 6 (passing [9])) t₆ ∧
        (t₆.sockets.socket 2).sent = [1, 2] ∧ (t₆.sockets.socket 3).sent = [9] ∧ Partners t₆.sockets 4 3 := by
    refine ⟨_, ⟨⟨rfl, fun _ _ => rfl⟩, rfl⟩, _, ⟨possible_answering rfl rfl, rfl⟩, _, ⟨possible_passing 5 _, rfl⟩, _,
      ⟨possible_passing 5 _, rfl⟩, _, ⟨possible_answering rfl rfl, rfl⟩, _, ⟨possible_passing 6 _, rfl⟩, rfl, rfl, ?_⟩
    exact ⟨by decide, by decide, Or.inr ⟨rfl, rfl, rfl⟩⟩
  obtain ⟨t₁, h₁, t₂, h₂, t₃, h₃, t₄, h₄, t₅, h₅, t₆, h₆, hfirst, hsecond, hpartners⟩ := hsteps
  have hrun : Run Step new twoClients t₆ := ((((((Run.nil _).snoc h₁).snoc h₂).snoc h₃).snoc h₄).snoc h₅).snoc h₆
  exact ⟨t₆, hrun, hfirst, hsecond, ((tunnel_relays twoClients t₆ hrun).2.1 4 3 hpartners).2.2⟩

end

end TcpTunnel

end Thebends.Ynet
