import Memflux.Lib.Simulation

/-! # One thread behind a queue of connections

A server with one thread takes the connections to its listening socket, the oldest first.
It reads once from each, writes at most one response and closes the connection, and then
does a piece of work of its own. The peers write and close when they like, and can be any
number. Reading waits for a peer that has neither written nor closed; writing to one that
has closed ends the server, as `SIGPIPE` does.
-/

namespace Serving

open Simulation

variable {α σ ι κ : Type}

/-- What a server does: how much it reads, how many connections may wait, what it answers,
with inputs `ι` from elsewhere, and its own work, with inputs `κ`. -/
structure Service (α σ ι κ : Type) where
  room : Nat
  backlog : Nat
  respond : σ → List α → ι → σ × Option (List α)
  work : σ → κ → σ

/-- A connection: what its peer wrote, whether the peer has closed it, and the same of the
server. -/
structure Conn (α : Type) where
  wrote : List α := []
  left : Bool := false
  received : List α := []
  closed : Bool := false

/-- Where the thread is. -/
inductive Pc (α : Type) where
  | top
  | reading (i : Nat)
  | writing (i : Nat) (resp : List α)
  | working
  | gone

/-- Connections have the numbers of their order. -/
structure State (α σ : Type) where
  state : σ
  pc : Pc α
  stopped : Bool
  queue : List Nat
  conns : List (Conn α)

def init (d : σ) : State α σ := ⟨d, .top, false, [], []⟩

inductive Event (α ι κ : Type) where
  | connect
  | send (i : Nat) (b : List α)
  | leave (i : Nat)
  | stop
  | accept (i : Nat)
  | skip
  | read (i : Nat) (b : List α) (x : ι)
  | interrupt (i : Nat)
  | write (i : Nat)
  | broken (i : Nat)
  | work (k : κ)
  | exit

def Conn.shut (c : Conn α) : Conn α := { c with closed := true }

def State.update (s : State α σ) (i : Nat) (c : Conn α) : State α σ :=
  { s with conns := s.conns.set i c }

/-- The end of the process closes every connection. -/
def State.hangUp (s : State α σ) : State α σ :=
  { s with pc := .gone, queue := [], conns := s.conns.map Conn.shut }

/-- The steps of the peers, of whoever stops the server, and of its thread. -/
inductive Step (svc : Service α σ ι κ) : State α σ → Event α ι κ → State α σ → Prop where
  | connect {s : State α σ} : s.pc ≠ .gone → s.queue.length ≤ svc.backlog →
      Step svc s .connect
        { s with queue := s.queue ++ [s.conns.length], conns := s.conns ++ [{}] }
  | send {s : State α σ} {i : Nat} {c : Conn α} (b : List α) : s.conns[i]? = some c →
      c.left = false → c.closed = false →
      Step svc s (.send i b) (s.update i { c with wrote := c.wrote ++ b })
  | leave {s : State α σ} {i : Nat} {c : Conn α} : s.conns[i]? = some c → c.left = false →
      Step svc s (.leave i) (s.update i { c with left := true })
  | stop (s : State α σ) : Step svc s .stop { s with stopped := true }
  | accept {s : State α σ} {i : Nat} {q : List Nat} : s.pc = .top → s.stopped = false →
      s.queue = i :: q → Step svc s (.accept i) { s with pc := .reading i, queue := q }
  | skip {s : State α σ} : s.pc = .top → s.stopped = false → s.queue = [] →
      Step svc s .skip { s with pc := .working }
  | refuse {s : State α σ} {i : Nat} {c : Conn α} {x : ι} {d : σ} : s.pc = .reading i →
      s.conns[i]? = some c → c.wrote ≠ [] ∨ c.left = true →
      svc.respond s.state (c.wrote.take svc.room) x = (d, none) →
      Step svc s (.read i (c.wrote.take svc.room) x)
        { s.update i c.shut with state := d, pc := .working }
  | read {s : State α σ} {i : Nat} {c : Conn α} {x : ι} {d : σ} {resp : List α} :
      s.pc = .reading i → s.conns[i]? = some c → c.wrote ≠ [] ∨ c.left = true →
      svc.respond s.state (c.wrote.take svc.room) x = (d, some resp) →
      Step svc s (.read i (c.wrote.take svc.room) x)
        { s with state := d, pc := .writing i resp }
  | interrupt {s : State α σ} {i : Nat} {c : Conn α} : s.pc = .reading i → s.stopped = true →
      s.conns[i]? = some c →
      Step svc s (.interrupt i) { s.update i c.shut with pc := .working }
  | write {s : State α σ} {i : Nat} {c : Conn α} {resp : List α} : s.pc = .writing i resp →
      s.conns[i]? = some c → c.left = false →
      Step svc s (.write i) { s.update i { c.shut with received := resp } with pc := .working }
  | broken {s : State α σ} {i : Nat} {c : Conn α} {resp : List α} : s.pc = .writing i resp →
      s.conns[i]? = some c → c.left = true → Step svc s (.broken i) s.hangUp
  | work {s : State α σ} (k : κ) : s.pc = .working →
      Step svc s (.work k) { s with state := svc.work s.state k, pc := .top }
  | exit {s : State α σ} : s.pc = .top → s.stopped = true → Step svc s .exit s.hangUp

/-! ## Computing runs -/

/-- The state after an event, where it can happen. -/
def next [DecidableEq α] (svc : Service α σ ι κ) (s : State α σ) :
    Event α ι κ → Option (State α σ)
  | .connect =>
      match s.pc with
      | .gone => none
      | _ =>
          if s.queue.length ≤ svc.backlog then
            some { s with queue := s.queue ++ [s.conns.length], conns := s.conns ++ [{}] }
          else none
  | .send i b =>
      s.conns[i]?.bind fun c =>
        if c.left = false ∧ c.closed = false then some (s.update i { c with wrote := c.wrote ++ b })
        else none
  | .leave i =>
      s.conns[i]?.bind fun c =>
        if c.left = false then some (s.update i { c with left := true }) else none
  | .stop => some { s with stopped := true }
  | .accept i =>
      match s.pc, s.queue with
      | .top, j :: q =>
          if s.stopped = false ∧ i = j then some { s with pc := .reading i, queue := q } else none
      | _, _ => none
  | .skip =>
      match s.pc, s.queue with
      | .top, [] => if s.stopped = false then some { s with pc := .working } else none
      | _, _ => none
  | .read i b x =>
      match s.pc, s.conns[i]? with
      | .reading j, some c =>
          if i = j ∧ (c.wrote ≠ [] ∨ c.left = true) ∧ b = c.wrote.take svc.room then
            match svc.respond s.state b x with
            | (d, none) => some { s.update i c.shut with state := d, pc := .working }
            | (d, some resp) => some { s with state := d, pc := .writing i resp }
          else none
      | _, _ => none
  | .interrupt i =>
      match s.pc, s.conns[i]? with
      | .reading j, some c =>
          if i = j ∧ s.stopped = true then some { s.update i c.shut with pc := .working } else none
      | _, _ => none
  | .write i =>
      match s.pc, s.conns[i]? with
      | .writing j resp, some c =>
          if i = j ∧ c.left = false then
            some { s.update i { c.shut with received := resp } with pc := .working }
          else none
      | _, _ => none
  | .broken i =>
      match s.pc, s.conns[i]? with
      | .writing j _, some c => if i = j ∧ c.left = true then some s.hangUp else none
      | _, _ => none
  | .work k =>
      match s.pc with
      | .working => some { s with state := svc.work s.state k, pc := .top }
      | _ => none
  | .exit =>
      match s.pc with
      | .top => if s.stopped = true then some s.hangUp else none
      | _ => none

theorem step_of_next [DecidableEq α] {svc : Service α σ ι κ} {s s' : State α σ} {e : Event α ι κ}
    (h : next svc s e = some s') : Step svc s e s' := by
  cases e with
  | connect =>
      have hgone : s.pc ≠ .gone := fun hpc => by simp [next, hpc] at h
      have hnext : s.queue.length ≤ svc.backlog ∧
          { s with queue := s.queue ++ [s.conns.length], conns := s.conns ++ [{}] } = s' := by
        cases hpc : s.pc <;> simp_all [next]
      rw [← hnext.2]
      exact .connect hgone hnext.1
  | send i b =>
      obtain ⟨c, hi, h⟩ := Option.bind_eq_some_iff.mp h
      split at h
      · rename_i hopen
        rw [← Option.some.inj h]
        exact .send b hi hopen.1 hopen.2
      · cases h
  | leave i =>
      obtain ⟨c, hi, h⟩ := Option.bind_eq_some_iff.mp h
      split at h
      · rename_i hopen
        rw [← Option.some.inj h]
        exact .leave hi hopen
      · cases h
  | stop =>
      rw [← Option.some.inj h]
      exact .stop s
  | accept i =>
      simp only [next] at h
      split at h
      · rename_i hpc hqueue
        split at h
        · rename_i hcond
          obtain ⟨hgoing, rfl⟩ := hcond
          rw [← Option.some.inj h]
          exact .accept hpc hgoing hqueue
        · cases h
      · cases h
  | skip =>
      simp only [next] at h
      split at h
      · rename_i hpc hqueue
        split at h
        · rename_i hgoing
          rw [← Option.some.inj h]
          exact .skip hpc hgoing hqueue
        · cases h
      · cases h
  | read i b x =>
      simp only [next] at h
      split at h
      · rename_i hpc hi
        split at h
        · rename_i hcond
          obtain ⟨rfl, hready, rfl⟩ := hcond
          split at h
          · rename_i hresp
            rw [← Option.some.inj h]
            exact .refuse hpc hi hready hresp
          · rename_i hresp
            rw [← Option.some.inj h]
            exact .read hpc hi hready hresp
        · cases h
      · cases h
  | interrupt i =>
      simp only [next] at h
      split at h
      · rename_i hpc hi
        split at h
        · rename_i hcond
          obtain ⟨rfl, hstopped⟩ := hcond
          rw [← Option.some.inj h]
          exact .interrupt hpc hstopped hi
        · cases h
      · cases h
  | write i =>
      simp only [next] at h
      split at h
      · rename_i hpc hi
        split at h
        · rename_i hcond
          obtain ⟨rfl, hstays⟩ := hcond
          rw [← Option.some.inj h]
          exact .write hpc hi hstays
        · cases h
      · cases h
  | broken i =>
      simp only [next] at h
      split at h
      · rename_i hpc hi
        split at h
        · rename_i hcond
          obtain ⟨rfl, hleft⟩ := hcond
          rw [← Option.some.inj h]
          exact .broken hpc hi hleft
        · cases h
      · cases h
  | work k =>
      simp only [next] at h
      split at h
      · rename_i hpc
        rw [← Option.some.inj h]
        exact .work k hpc
      · cases h
  | exit =>
      simp only [next] at h
      split at h
      · rename_i hpc
        split at h
        · rename_i hstopped
          rw [← Option.some.inj h]
          exact .exit hpc hstopped
        · cases h
      · cases h

/-- The state after events, where they can happen one after the other. -/
def after [DecidableEq α] (svc : Service α σ ι κ) : State α σ → List (Event α ι κ) → Option (State α σ)
  | s, [] => some s
  | s, e :: es => (next svc s e).bind fun s' => after svc s' es

theorem run_of_after [DecidableEq α] {svc : Service α σ ι κ} {s s' : State α σ}
    {es : List (Event α ι κ)} (h : after svc s es = some s') : Run (Step svc) s es s' := by
  induction es generalizing s with
  | nil =>
      rw [← Option.some.inj h]
      exact .nil s
  | cons e es ih =>
      obtain ⟨s₁, hfirst, hrest⟩ := Option.bind_eq_some_iff.mp h
      exact .cons (step_of_next hfirst) (ih hrest)

/-! ## What holds in every state -/

def Pc.client : Pc α → Option Nat
  | .reading i => some i
  | .writing i _ => some i
  | _ => none

/-- The connections that the thread has taken are those with a smaller number. -/
def State.taken (s : State α σ) : Nat := s.conns.length - s.queue.length

/-- The queue is in the order of the connections, its head the first one not taken; a
connection taken is closed, but for the one that is served, and one still open has no
response. -/
structure Inv (svc : Service α σ ι κ) (s : State α σ) : Prop where
  bounded : s.queue.length ≤ s.conns.length
  room : s.queue.length ≤ svc.backlog + 1
  order : s.queue = List.range' s.taken s.queue.length
  client : ∀ i, s.pc.client = some i → i + 1 = s.taken
  closed : ∀ (i : Nat) (c : Conn α), s.conns[i]? = some c →
    (c.closed = true ↔ s.pc = .gone ∨ i < s.taken ∧ s.pc.client ≠ some i)
  unanswered : ∀ (i : Nat) (c : Conn α), s.conns[i]? = some c → c.closed = false → c.received = []

theorem inv_init (svc : Service α σ ι κ) (d : σ) : Inv svc (init d : State α σ) where
  bounded := Nat.le_refl _
  room := Nat.zero_le _
  order := rfl
  client _ h := nomatch h
  closed _ _ h := nomatch h
  unanswered _ _ h := nomatch h

section

variable {svc : Service α σ ι κ} {s s' : State α σ}

theorem getElem?_update {i j : Nat} {c c' : Conn α} (hi : s.conns[i]? = some c) :
    (s.update i c').conns[j]? = if i = j then some c' else s.conns[j]? := by
  have hlt : i < s.conns.length := (List.getElem?_eq_some_iff.mp hi).1
  rw [State.update, List.getElem?_set, if_pos hlt]

@[simp] theorem taken_update (s : State α σ) (i : Nat) (c : Conn α) :
    (s.update i c).taken = s.taken := by
  rw [State.taken, State.taken, State.update, List.length_set]

/-- A peer changes neither what it received nor whether the server has closed. -/
theorem Inv.peer (h : Inv svc s) {i : Nat} {c c' : Conn α} (hi : s.conns[i]? = some c)
    (hclosed : c'.closed = c.closed) (hreceived : c'.received = c.received) :
    Inv svc (s.update i c') where
  bounded := by
    rw [State.update, List.length_set]
    exact h.bounded
  room := h.room
  order := by
    rw [taken_update]
    exact h.order
  client j hj := by
    rw [taken_update]
    exact h.client j hj
  closed j b hj := by
    rw [taken_update]
    rw [getElem?_update hi] at hj
    split at hj
    · rename_i heq
      subst heq
      rw [← Option.some.inj hj, hclosed]
      exact h.closed i c hi
    · exact h.closed j b hj
  unanswered j b hj hopen := by
    rw [getElem?_update hi] at hj
    split at hj
    · rw [← Option.some.inj hj] at hopen ⊢
      rw [hreceived]
      exact h.unanswered i c hi (hclosed.symm.trans hopen)
    · exact h.unanswered j b hj hopen

theorem Inv.finish (h : Inv svc s) {i : Nat} {c c' : Conn α} (hpc : s.pc.client = some i)
    (hi : s.conns[i]? = some c) (hclosed : c'.closed = true) (d : σ) :
    Inv svc { s.update i c' with state := d, pc := .working } where
  bounded := by
    rw [State.update, List.length_set]
    exact h.bounded
  room := h.room
  order := by
    show s.queue = List.range' (s.update i c').taken s.queue.length
    rw [taken_update]
    exact h.order
  client _ hj := nomatch hj
  closed j b hj := by
    have htaken := h.client i hpc
    show _ ↔ Pc.working = .gone ∨ j < (s.update i c').taken ∧ none ≠ some j
    rw [taken_update]
    have hafter : (s.update i c').conns[j]? = some b := hj
    rw [getElem?_update hi] at hafter
    split at hafter
    · rename_i heq
      subst heq
      rw [← Option.some.inj hafter, hclosed]
      exact iff_of_true rfl (.inr ⟨by omega, nofun⟩)
    · rename_i hne
      rw [h.closed j b hafter]
      constructor
      · rintro (hgone | ⟨hlt, -⟩)
        · rw [hgone] at hpc
          cases hpc
        · exact .inr ⟨hlt, nofun⟩
      · rintro (hgone | ⟨hlt, -⟩)
        · cases hgone
        · refine .inr ⟨hlt, ?_⟩
          rw [hpc]
          exact fun heq => hne (Option.some.inj heq)
  unanswered j b hj hopen := by
    have hafter : (s.update i c').conns[j]? = some b := hj
    rw [getElem?_update hi] at hafter
    split at hafter
    · rw [← Option.some.inj hafter, hclosed] at hopen
      cases hopen
    · exact h.unanswered j b hafter hopen

theorem Inv.goes (h : Inv svc s) (pc : Pc α) (hclient : pc.client = s.pc.client)
    (halive : s.pc ≠ .gone) (halive' : pc ≠ .gone) (d : σ) :
    Inv svc { s with state := d, pc := pc } where
  bounded := h.bounded
  room := h.room
  order := h.order
  client i hi := h.client i (hclient.symm.trans hi)
  closed i c hi := by
    rw [h.closed i c hi]
    show _ ↔ pc = .gone ∨ i < s.taken ∧ pc.client ≠ some i
    rw [hclient]
    exact or_congr_left (iff_of_false halive halive')
  unanswered := h.unanswered

theorem inv_hangUp (svc : Service α σ ι κ) (s : State α σ) : Inv svc s.hangUp where
  bounded := Nat.zero_le _
  room := Nat.zero_le _
  order := rfl
  client _ hi := nomatch hi
  closed i c hi := by
    have hi : (s.conns.map Conn.shut)[i]? = some c := hi
    rw [List.getElem?_map] at hi
    obtain ⟨b, -, hb⟩ := Option.map_eq_some_iff.mp hi
    rw [← hb]
    exact iff_of_true rfl (.inl rfl)
  unanswered i c hi hopen := by
    have hi : (s.conns.map Conn.shut)[i]? = some c := hi
    rw [List.getElem?_map] at hi
    obtain ⟨b, -, hb⟩ := Option.map_eq_some_iff.mp hi
    rw [← hb] at hopen
    cases hopen

theorem Inv.connect (h : Inv svc s) (halive : s.pc ≠ .gone) (hroom : s.queue.length ≤ svc.backlog) :
    Inv svc { s with queue := s.queue ++ [s.conns.length], conns := s.conns ++ [{}] } where
  bounded := by
    simp only [List.length_append, List.length_singleton]
    exact Nat.succ_le_succ h.bounded
  room := by
    simp only [List.length_append, List.length_singleton]
    omega
  order := by
    have hbounded := h.bounded
    simp only [State.taken, List.length_append, List.length_singleton, Nat.add_sub_add_right]
    rw [List.range'_concat, ← State.taken, ← h.order, State.taken]
    congr 2
    omega
  client i hi := by
    simp only [State.taken, List.length_append, List.length_singleton, Nat.add_sub_add_right]
    exact h.client i hi
  closed i c hi := by
    simp only [State.taken, List.length_append, List.length_singleton, Nat.add_sub_add_right]
    rw [← State.taken]
    rcases Nat.lt_or_ge i s.conns.length with hlt | hge
    · rw [List.getElem?_append_left hlt] at hi
      exact h.closed i c hi
    · rw [List.getElem?_append_right hge] at hi
      obtain rfl : c = {} := List.mem_singleton.mp (List.mem_of_getElem? hi)
      refine iff_of_false nofun ?_
      rintro (hgone | ⟨hlt, -⟩)
      · exact halive hgone
      · rw [State.taken] at hlt
        omega
  unanswered i c hi hopen := by
    rcases Nat.lt_or_ge i s.conns.length with hlt | hge
    · rw [List.getElem?_append_left hlt] at hi
      exact h.unanswered i c hi hopen
    · rw [List.getElem?_append_right hge] at hi
      obtain rfl : c = {} := List.mem_singleton.mp (List.mem_of_getElem? hi)
      rfl

theorem Inv.head (h : Inv svc s) {i : Nat} {q : List Nat} (hqueue : s.queue = i :: q) :
    i = s.taken ∧ q = List.range' (s.taken + 1) q.length := by
  have horder := h.order
  rw [hqueue, List.length_cons, List.range'_succ] at horder
  exact List.cons.inj horder

theorem Inv.accept (h : Inv svc s) {i : Nat} {q : List Nat} (hpc : s.pc = .top)
    (hqueue : s.queue = i :: q) : Inv svc { s with pc := .reading i, queue := q } := by
  obtain ⟨hi, hq⟩ := h.head hqueue
  have hlength : s.queue.length = q.length + 1 := by rw [hqueue, List.length_cons]
  have hbounded := h.bounded
  have htaken : State.taken { s with pc := .reading i, queue := q } = s.taken + 1 := by
    show s.conns.length - q.length = s.taken + 1
    rw [State.taken]
    omega
  refine ⟨?_, ?_, ?_, ?_, ?_, h.unanswered⟩
  · show q.length ≤ s.conns.length
    omega
  · have hroom := h.room
    show q.length ≤ svc.backlog + 1
    omega
  · rw [htaken]
    exact hq
  · intro j hj
    obtain rfl : i = j := Option.some.inj hj
    rw [htaken, hi]
  · intro j c hj
    rw [h.closed j c hj, htaken]
    show _ ↔ Pc.reading i = .gone ∨ j < s.taken + 1 ∧ some i ≠ some j
    have hnone : s.pc.client = none := by rw [hpc]; rfl
    rw [hnone, hpc]
    constructor
    · rintro (hgone | ⟨hlt, -⟩)
      · cases hgone
      · refine .inr ⟨by omega, fun heq => ?_⟩
        have := Option.some.inj heq
        omega
    · rintro (hgone | ⟨hlt, hne⟩)
      · cases hgone
      · have hne : i ≠ j := fun heq => hne (congrArg some heq)
        exact .inr ⟨by omega, nofun⟩

theorem Inv.step {e : Event α ι κ} (h : Inv svc s) (hstep : Step svc s e s') : Inv svc s' := by
  cases hstep with
  | connect halive hroom => exact h.connect halive hroom
  | send b hi _ _ => exact h.peer hi rfl rfl
  | leave hi _ => exact h.peer hi rfl rfl
  | stop => exact ⟨h.bounded, h.room, h.order, h.client, h.closed, h.unanswered⟩
  | accept hpc _ hqueue => exact h.accept hpc hqueue
  | skip hpc _ _ => exact h.goes .working (by rw [hpc]; rfl) (by rw [hpc]; nofun) nofun s.state
  | @refuse i c x d hpc hi _ _ => exact h.finish (by rw [hpc]; rfl) hi rfl d
  | @read i c x d resp hpc hi _ _ =>
      exact h.goes (.writing i resp) (by rw [hpc]; rfl) (by rw [hpc]; nofun) nofun d
  | interrupt hpc _ hi => exact h.finish (by rw [hpc]; rfl) hi rfl s.state
  | write hpc hi _ => exact h.finish (by rw [hpc]; rfl) hi rfl s.state
  | broken _ _ _ => exact inv_hangUp svc _
  | work k hpc =>
      exact h.goes .top (by rw [hpc]; rfl) (by rw [hpc]; nofun) nofun (svc.work s.state k)
  | exit _ _ => exact inv_hangUp svc _

theorem inv_of_run {d : σ} {es : List (Event α ι κ)} (h : Run (Step svc) (init d) es s) : Inv svc s :=
  h.invariant (fun _ _ _ hstep hinv => hinv.step hstep) (inv_init svc d)

end

end Serving
