import Memflux.Lib.Turns

/-! # What the peers of a server can rely on

A client that keeps its connection silent stops the server for everybody. A connection in
the queue waits for a bounded number of turns. And when every client writes its request
and waits for the response, everybody is answered.
-/

namespace Serving

open Simulation

variable {α σ ι κ : Type}

/-! ## A silent client -/

/-- The thread reads from a client that has written nothing and is still there. -/
def Silent (s : State α σ) (i : Nat) : Prop :=
  s.pc = .reading i ∧ s.stopped = false ∧
    ∃ c : Conn α, s.conns[i]? = some c ∧ c.wrote = [] ∧ c.left = false

/-- Events of a client, or that stop the server. -/
def Event.Wakes (i : Nat) : Event α ι κ → Prop
  | .send j _ => j = i
  | .leave j => j = i
  | .stop => True
  | _ => False

section

variable {svc : Service α σ ι κ} {s s' : State α σ}

theorem Silent.step {i : Nat} (h : Silent s i) {e : Event α ι κ} (hstep : Step svc s e s')
    (he : ¬ e.Wakes i) : s'.state = s.state ∧ Silent s' i := by
  obtain ⟨hpc, hstopped, c, hc, hwrote, hleft⟩ := h
  have hother : ∀ {j : Nat} {c' b : Conn α}, s.conns[j]? = some b → j ≠ i →
      (s.update j c').conns[i]? = some c := by
    intro j c' b hj hne
    rw [getElem?_update hj, if_neg hne, hc]
  cases hstep with
  | connect _ _ =>
      refine ⟨rfl, hpc, hstopped, c, ?_, hwrote, hleft⟩
      rw [List.getElem?_append_left (List.getElem?_eq_some_iff.mp hc).1, hc]
  | send b hj _ _ => exact ⟨rfl, hpc, hstopped, c, hother hj he, hwrote, hleft⟩
  | leave hj _ => exact ⟨rfl, hpc, hstopped, c, hother hj he, hwrote, hleft⟩
  | stop => exact absurd trivial he
  | accept htop _ _ => rw [hpc] at htop; cases htop
  | skip htop _ _ => rw [hpc] at htop; cases htop
  | refuse hreading hj hready _ =>
      rw [hpc] at hreading
      obtain rfl := Pc.reading.inj hreading
      obtain rfl := Option.some.inj (hc.symm.trans hj)
      rcases hready with hready | hready
      · exact absurd hwrote hready
      · rw [hleft] at hready
        cases hready
  | read hreading hj hready _ =>
      rw [hpc] at hreading
      obtain rfl := Pc.reading.inj hreading
      obtain rfl := Option.some.inj (hc.symm.trans hj)
      rcases hready with hready | hready
      · exact absurd hwrote hready
      · rw [hleft] at hready
        cases hready
  | interrupt _ hstop _ => rw [hstopped] at hstop; cases hstop
  | write hwriting _ _ => rw [hpc] at hwriting; cases hwriting
  | broken hwriting _ _ => rw [hpc] at hwriting; cases hwriting
  | work _ hworking => rw [hpc] at hworking; cases hworking
  | exit htop _ => rw [hpc] at htop; cases htop

/-- As long as a silent client stays so, whatever the others do, the server does nothing. -/
theorem Silent.run {i : Nat} (h : Silent s i) {es : List (Event α ι κ)} (hrun : Run (Step svc) s es s')
    (he : ∀ e ∈ es, ¬ e.Wakes i) : s'.state = s.state ∧ Silent s' i :=
  hrun.invariant_of (I := fun s' => s'.state = s.state ∧ Silent s' i)
    (fun _ e _ hmem hstep ⟨hstate, hsilent⟩ =>
      let ⟨hsame, hnext⟩ := hsilent.step hstep (he e hmem)
      ⟨hsame.trans hstate, hnext⟩)
    ⟨rfl, h⟩

theorem Silent.unanswered {i : Nat} (h : Silent s i) (hinv : Inv svc s) :
    ∀ (j : Nat) (c : Conn α), i ≤ j → s.conns[j]? = some c → c.received = [] ∧ c.closed = false := by
  intro j c hle hj
  have htaken := hinv.client i (by rw [h.1]; rfl)
  have hopen : c.closed = false := by
    rw [Bool.eq_false_iff, ne_eq, hinv.closed j c hj, h.1]
    rintro (hgone | ⟨hlt, hne⟩)
    · cases hgone
    · obtain rfl : i = j := by omega
      exact hne rfl
  exact ⟨hinv.unanswered j c hj hopen, hopen⟩

/-! ## Waiting -/

def State.begun (s : State α σ) : Nat :=
  s.taken + match s.pc with
    | .top => 1
    | _ => 0

theorem works_snoc (es : List (Event α ι κ)) (e : Event α ι κ) :
    ((es ++ [e]).filterMap Event.work?).length =
      (es.filterMap Event.work?).length + e.work?.toList.length := by
  rw [List.filterMap_append, List.length_append]
  cases e <;> rfl

/-- While a connection waits, every turn takes one that was before it. -/
theorem begun_step (hinv : Inv svc s) {e : Event α ι κ} (hstep : Step svc s e s') {i : Nat}
    (hi : i ∈ s.queue) (hi' : i ∈ s'.queue) : s'.begun = s.begun + e.work?.toList.length := by
  have hbounded := hinv.bounded
  cases hstep with
  | connect _ _ =>
      simp only [State.begun, State.taken, List.length_append, List.length_singleton,
        Nat.add_sub_add_right]
      rfl
  | send _ _ _ _ => simp only [State.begun, taken_update]; rfl
  | leave _ _ => simp only [State.begun, taken_update]; rfl
  | stop => rfl
  | accept hpc _ hqueue =>
      simp only [State.begun, State.taken, hpc, hqueue, List.length_cons] at hbounded ⊢
      show _ = _ + 0
      omega
  | skip _ _ hqueue => rw [hqueue] at hi; cases hi
  | @refuse j c _ _ hpc _ _ _ =>
      show (s.update j c.shut).taken + 0 = s.begun + 0
      rw [taken_update, State.begun, hpc]
      rfl
  | read hpc _ _ _ =>
      show s.taken + 0 = s.begun + 0
      rw [State.begun, hpc]
      rfl
  | @interrupt j c hpc _ _ =>
      show (s.update j c.shut).taken + 0 = s.begun + 0
      rw [taken_update, State.begun, hpc]
      rfl
  | @write j c resp hpc _ _ =>
      show (s.update j { c.shut with received := resp }).taken + 0 = s.begun + 0
      rw [taken_update, State.begun, hpc]
      rfl
  | broken _ _ _ => cases hi'
  | work _ hpc =>
      show s.taken + 1 = s.begun + 1
      rw [State.begun, hpc]
      rfl
  | exit _ _ => cases hi'

theorem length_conns_step {e : Event α ι κ} (hstep : Step svc s e s') :
    s.conns.length ≤ s'.conns.length := by
  have hupdate : ∀ (i : Nat) (c : Conn α), s.conns.length ≤ (s.update i c).conns.length :=
    fun i c => Nat.le_of_eq List.length_set.symm
  have hhangUp : s.conns.length ≤ s.hangUp.conns.length := Nat.le_of_eq (List.length_map _).symm
  cases hstep with
  | connect _ _ =>
      show _ ≤ (s.conns ++ [({} : Conn α)]).length
      rw [List.length_append]
      exact Nat.le_add_right _ _
  | send b _ _ _ => exact hupdate _ _
  | leave _ _ => exact hupdate _ _
  | stop => exact Nat.le_refl _
  | accept _ _ _ => exact Nat.le_refl _
  | skip _ _ _ => exact Nat.le_refl _
  | refuse _ _ _ _ => exact hupdate _ _
  | read _ _ _ _ => exact Nat.le_refl _
  | interrupt _ _ _ => exact hupdate _ _
  | write _ _ _ => exact hupdate _ _
  | broken _ _ _ => exact hhangUp
  | work _ _ => exact Nat.le_refl _
  | exit _ _ => exact hhangUp

theorem mem_queue_step {e : Event α ι κ} (hstep : Step svc s e s') {i : Nat} (hi : i ∈ s'.queue) :
    i ∈ s.queue ∨ i = s.conns.length := by
  cases hstep with
  | connect _ _ =>
      rcases List.mem_append.mp hi with hi | hi
      · exact .inl hi
      · exact .inr (List.mem_singleton.mp hi)
  | accept _ _ hqueue =>
      rw [hqueue]
      exact .inl (List.mem_cons_of_mem _ hi)
  | broken _ _ _ => cases hi
  | exit _ _ => cases hi
  | send _ _ _ _ => exact .inl hi
  | leave _ _ => exact .inl hi
  | stop => exact .inl hi
  | skip _ _ _ => exact .inl hi
  | refuse _ _ _ _ => exact .inl hi
  | read _ _ _ _ => exact .inl hi
  | interrupt _ _ _ => exact .inl hi
  | write _ _ _ => exact .inl hi
  | work _ _ => exact .inl hi

theorem waits (hinv : Inv svc s) {es : List (Event α ι κ)} (hrun : Run (Step svc) s es s') {i : Nat}
    (hi : i ∈ s.queue) (hi' : i ∈ s'.queue) :
    (es.filterMap Event.work?).length ≤ svc.backlog + 1 := by
  have hlt : i < s.conns.length ∧ s.taken + s.queue.length = s.conns.length := by
    have hmem := hi
    have hbounded := hinv.bounded
    rw [hinv.order, List.mem_range'_1] at hmem
    rw [State.taken] at hmem ⊢
    omega
  have hcount : s.conns.length ≤ s'.conns.length ∧ Inv svc s' ∧
      (i ∈ s'.queue → s'.begun = s.begun + (es.filterMap Event.work?).length) := by
    refine hrun.history (P := fun es s' => s.conns.length ≤ s'.conns.length ∧ Inv svc s' ∧
      (i ∈ s'.queue → s'.begun = s.begun + (es.filterMap Event.work?).length)) ?_ ?_
    · exact ⟨Nat.le_refl _, hinv, fun _ => rfl⟩
    · rintro es s₁ e s₂ - ⟨hlength, hinv₁, hbegun⟩ hstep
      refine ⟨hlength.trans (length_conns_step hstep), hinv₁.step hstep, fun hmem => ?_⟩
      rcases mem_queue_step hstep hmem with hmem₁ | rfl
      · rw [begun_step hinv₁ hstep hmem₁ hmem, hbegun hmem₁, works_snoc, Nat.add_assoc]
      · exact absurd hlt.1 (Nat.not_lt.mpr hlength)
  obtain ⟨-, hinv', hbegun⟩ := hcount
  have htaken : s'.taken ≤ i := by
    have hmem := hi'
    rw [hinv'.order, List.mem_range'_1] at hmem
    exact hmem.1
  have hroom := hinv.room
  have hfirst : s.taken ≤ s.begun := Nat.le_add_right _ _
  have hlast : s'.begun ≤ s'.taken + 1 := by
    unfold State.begun
    split <;> omega
  have hsame := hbegun hi'
  omega

end

/-! ## Courteous clients -/

/-- Each client writes one whole request at once and stays until the server closes the
connection, and nobody stops the server. -/
def Courteous (svc : Service α σ ι κ) (s : State α σ) : Event α ι κ → Prop
  | .send i b => b.length = svc.room ∧ ∀ c : Conn α, s.conns[i]? = some c → c.wrote = []
  | .leave i => ∀ c : Conn α, s.conns[i]? = some c → c.closed = true
  | .stop => False
  | _ => True

def CourteousStep (svc : Service α σ ι κ) (s : State α σ) (e : Event α ι κ) (s' : State α σ) : Prop :=
  Step svc s e s' ∧ Courteous svc s e

/-- A whole request gets a response. -/
structure Answers (svc : Service α σ ι κ) : Prop where
  room : 0 < svc.room
  respond : ∀ (d : σ) (b : List α) (x : ι), b.length = svc.room →
    ∃ d' resp, svc.respond d b x = (d', some resp) ∧ resp ≠ []

/-- Among courteous clients the server goes on, and a closed connection has its response. -/
structure Mannerly (svc : Service α σ ι κ) (s : State α σ) : Prop where
  alive : s.pc ≠ .gone
  going : s.stopped = false
  whole : ∀ (i : Nat) (c : Conn α), s.conns[i]? = some c → c.wrote = [] ∨ c.wrote.length = svc.room
  stays : ∀ (i : Nat) (c : Conn α), s.conns[i]? = some c → c.left = true → c.closed = true
  told : ∀ (i : Nat) (c : Conn α), s.conns[i]? = some c → c.closed = true → c.received ≠ []
  writing : ∀ i resp, s.pc = .writing i resp → resp ≠ []

section

variable {svc : Service α σ ι κ} {s s' : State α σ}

theorem mannerly_init (svc : Service α σ ι κ) (d : σ) : Mannerly svc (init d : State α σ) :=
  ⟨nofun, rfl, nofun, nofun, nofun, nofun⟩

theorem Mannerly.update (h : Mannerly svc s) {i : Nat} {c : Conn α} (c' : Conn α)
    (hi : s.conns[i]? = some c)
    (hwhole : c'.wrote = [] ∨ c'.wrote.length = svc.room)
    (hstays : c'.left = true → c'.closed = true) (htold : c'.closed = true → c'.received ≠ [])
    (pc : Pc α) (halive : pc ≠ .gone) (hwriting : ∀ j resp, pc = .writing j resp → resp ≠ []) :
    Mannerly svc { s.update i c' with pc := pc } := by
  have hcases : ∀ {j : Nat} {b : Conn α}, (s.update i c').conns[j]? = some b →
      b = c' ∨ s.conns[j]? = some b := by
    intro j b hj
    rw [getElem?_update hi] at hj
    split at hj
    · exact .inl (Option.some.inj hj).symm
    · exact .inr hj
  refine ⟨halive, h.going, fun j b hj => ?_, fun j b hj => ?_, fun j b hj => ?_, hwriting⟩
  · rcases hcases hj with rfl | hj
    · exact hwhole
    · exact h.whole j b hj
  · rcases hcases hj with rfl | hj
    · exact hstays
    · exact h.stays j b hj
  · rcases hcases hj with rfl | hj
    · exact htold
    · exact h.told j b hj

theorem Mannerly.served (h : Mannerly svc s) (hinv : Inv svc s) {i : Nat} {c : Conn α}
    (hpc : s.pc.client = some i) (hi : s.conns[i]? = some c) : c.closed = false ∧ c.left = false := by
  have hopen : c.closed = false := by
    rw [Bool.eq_false_iff, ne_eq, hinv.closed i c hi]
    rintro (hgone | ⟨-, hne⟩)
    · exact h.alive hgone
    · exact hne hpc
  refine ⟨hopen, Bool.eq_false_iff.mpr fun hleft => ?_⟩
  rw [h.stays i c hi hleft] at hopen
  cases hopen

theorem Mannerly.step (h : Mannerly svc s) (hinv : Inv svc s) (hanswers : Answers svc)
    {e : Event α ι κ} (hstep : CourteousStep svc s e s') : Mannerly svc s' := by
  obtain ⟨hstep, hcourteous⟩ := hstep
  have hready : ∀ {i : Nat} {c : Conn α}, s.pc = .reading i → s.conns[i]? = some c →
      c.wrote ≠ [] ∨ c.left = true → (c.wrote.take svc.room).length = svc.room := by
    intro i c hpc hi hready
    obtain ⟨-, hleft⟩ := h.served hinv (by rw [hpc]; rfl) hi
    rcases h.whole i c hi with hwrote | hwrote
    · rcases hready with hready | hready
      · exact absurd hwrote hready
      · rw [hleft] at hready
        cases hready
    · rw [List.length_take, hwrote, Nat.min_self]
  cases hstep with
  | connect halive hroom =>
      have hcases : ∀ {j : Nat} {b : Conn α}, (s.conns ++ [({} : Conn α)])[j]? = some b →
          b = {} ∨ s.conns[j]? = some b := by
        intro j b hj
        rcases Nat.lt_or_ge j s.conns.length with hlt | hge
        · rw [List.getElem?_append_left hlt] at hj
          exact .inr hj
        · rw [List.getElem?_append_right hge] at hj
          exact .inl (List.mem_singleton.mp (List.mem_of_getElem? hj))
      refine ⟨h.alive, h.going, fun j b hj => ?_, fun j b hj => ?_, fun j b hj => ?_, h.writing⟩
      · rcases hcases hj with rfl | hj
        · exact .inl rfl
        · exact h.whole j b hj
      · rcases hcases hj with rfl | hj
        · nofun
        · exact h.stays j b hj
      · rcases hcases hj with rfl | hj
        · nofun
        · exact h.told j b hj
  | @send i c b hi _ hopen =>
      have hwrote := hcourteous.2 c hi
      have hwhole : (c.wrote ++ b).length = svc.room := by
        rw [hwrote, List.nil_append]
        exact hcourteous.1
      exact h.update { c with wrote := c.wrote ++ b } hi (.inr hwhole) (h.stays i c hi) (h.told i c hi)
        s.pc h.alive h.writing
  | @leave i c hi _ =>
      exact h.update { c with left := true } hi (h.whole i c hi) (fun _ => hcourteous c hi)
        (h.told i c hi) s.pc h.alive h.writing
  | stop => exact absurd hcourteous id
  | accept _ _ _ => exact ⟨nofun, h.going, h.whole, h.stays, h.told, nofun⟩
  | skip _ _ _ => exact ⟨nofun, h.going, h.whole, h.stays, h.told, nofun⟩
  | @refuse i c x d hpc hi hpresent hresp =>
      obtain ⟨d', resp, heq, -⟩ := hanswers.respond s.state _ x (hready hpc hi hpresent)
      rw [heq] at hresp
      cases hresp
  | @read i c x d resp hpc hi hpresent hresp =>
      obtain ⟨d', resp', heq, hsome⟩ := hanswers.respond s.state _ x (hready hpc hi hpresent)
      obtain ⟨-, rfl⟩ : d' = d ∧ resp' = resp := by simpa [heq] using hresp
      refine ⟨nofun, h.going, h.whole, h.stays, h.told, fun j resp'' hj => ?_⟩
      obtain ⟨-, rfl⟩ := Pc.writing.inj hj
      exact hsome
  | interrupt _ hstop _ => rw [h.going] at hstop; cases hstop
  | @write i c resp hpc hi _ =>
      exact h.update { c.shut with received := resp } hi (h.whole i c hi) (fun _ => rfl)
        (fun _ => h.writing i resp hpc) .working nofun nofun
  | broken hpc hi hleft =>
      rw [(h.served hinv (by rw [hpc]; rfl) hi).2] at hleft
      cases hleft
  | work _ _ => exact ⟨nofun, h.going, h.whole, h.stays, h.told, nofun⟩
  | exit _ hstop => rw [h.going] at hstop; cases hstop

/-! ## Everybody is answered -/

/-- An event other than a new connection and a turn without a client. -/
def Event.Forward : Event α ι κ → Prop
  | .connect => False
  | .skip => False
  | _ => True

def ForwardStep (svc : Service α σ ι κ) (s : State α σ) (e : Event α ι κ) (s' : State α σ) : Prop :=
  CourteousStep svc s e s' ∧ e.Forward

/-- What a peer still has to do. -/
def Conn.weight (c : Conn α) : Nat := c.wrote.isEmpty.toNat + (!c.left).toNat

def Pc.weight : Pc α → Nat
  | .reading _ => 3
  | .writing _ _ => 2
  | .working => 1
  | _ => 0

/-- What is to be done before every client there is has its response and has left. -/
def State.weight (s : State α σ) : Nat :=
  4 * s.queue.length + s.pc.weight + (s.conns.map Conn.weight).sum

theorem weight_le (hinv : Inv svc s) : s.weight ≤ 6 * s.conns.length + 3 := by
  have hconn : ∀ cs : List (Conn α), (cs.map Conn.weight).sum ≤ 2 * cs.length := by
    intro cs
    induction cs with
    | nil => exact Nat.le_refl _
    | cons c cs ih =>
        have hone : c.weight ≤ 2 :=
          Nat.add_le_add (Bool.toNat_le c.wrote.isEmpty) (Bool.toNat_le !c.left)
        rw [List.map_cons, List.sum_cons, List.length_cons]
        omega
  have hpc : s.pc.weight ≤ 3 := by
    unfold Pc.weight
    split <;> omega
  have hconns := hconn s.conns
  have hbounded := hinv.bounded
  unfold State.weight
  omega

theorem sum_update {i : Nat} {c : Conn α} (c' : Conn α) (hi : s.conns[i]? = some c) :
    ((s.update i c').conns.map Conn.weight).sum + c.weight =
      (s.conns.map Conn.weight).sum + c'.weight := by
  have hset : ∀ (cs : List (Conn α)) (i : Nat), cs[i]? = some c →
      ((cs.set i c').map Conn.weight).sum + c.weight = (cs.map Conn.weight).sum + c'.weight := by
    intro cs
    induction cs with
    | nil => exact fun _ h => nomatch h
    | cons b cs ih =>
        intro i hi
        cases i with
        | zero =>
            obtain rfl : b = c := Option.some.inj hi
            simp only [List.set_cons_zero, List.map_cons, List.sum_cons]
            omega
        | succ i =>
            have hrest := ih i hi
            simp only [List.set_cons_succ, List.map_cons, List.sum_cons]
            omega
  exact hset s.conns i hi

theorem weight_step (hanswers : Answers svc) (hgoing : s.stopped = false) {e : Event α ι κ}
    (hstep : ForwardStep svc s e s') : s'.weight < s.weight := by
  obtain ⟨⟨hstep, hcourteous⟩, hforward⟩ := hstep
  have hroom := hanswers.room
  cases hstep with
  | connect _ _ => exact absurd hforward id
  | @send i c b hi hleft _ =>
      have hsum := sum_update { c with wrote := c.wrote ++ b } hi
      obtain ⟨hlength, hwrote⟩ := hcourteous
      have hsome : b ≠ [] := List.ne_nil_of_length_pos (by omega)
      have hbefore : c.weight = 1 + (!c.left).toNat := by rw [Conn.weight, hwrote c hi]; rfl
      have hafter : Conn.weight { c with wrote := c.wrote ++ b } = 0 + (!c.left).toNat := by
        rw [Conn.weight, hwrote c hi, List.nil_append]
        rw [List.isEmpty_eq_false_iff.mpr hsome]
        rfl
      show 4 * s.queue.length + s.pc.weight + _ < 4 * s.queue.length + s.pc.weight + _
      omega
  | @leave i c hi hleft =>
      have hsum := sum_update { c with left := true } hi
      have hbefore : c.weight = c.wrote.isEmpty.toNat + 1 := by rw [Conn.weight, hleft]; rfl
      have hafter : Conn.weight { c with left := true } = c.wrote.isEmpty.toNat + 0 := rfl
      show 4 * s.queue.length + s.pc.weight + _ < 4 * s.queue.length + s.pc.weight + _
      omega
  | stop => exact absurd hcourteous id
  | @accept i q hpc _ hqueue =>
      have hlength : s.queue.length = q.length + 1 := by rw [hqueue, List.length_cons]
      show 4 * q.length + 3 + (s.conns.map Conn.weight).sum < 4 * s.queue.length + s.pc.weight + _
      omega
  | skip _ _ _ => exact absurd hforward id
  | @refuse i c x d hpc hi _ _ =>
      have hsum := sum_update c.shut hi
      have hsame : c.shut.weight = c.weight := rfl
      show 4 * s.queue.length + 1 + ((s.update i c.shut).conns.map Conn.weight).sum <
        4 * s.queue.length + s.pc.weight + (s.conns.map Conn.weight).sum
      rw [hpc]
      show _ < 4 * s.queue.length + 3 + _
      omega
  | read hpc _ _ _ =>
      show 4 * s.queue.length + 2 + (s.conns.map Conn.weight).sum < 4 * s.queue.length + s.pc.weight + _
      rw [hpc]
      show _ < 4 * s.queue.length + 3 + _
      omega
  | interrupt _ hstop _ => rw [hgoing] at hstop; cases hstop
  | @write i c resp hpc hi _ =>
      have hsum := sum_update { c.shut with received := resp } hi
      have hsame : Conn.weight { c.shut with received := resp } = c.weight := rfl
      show 4 * s.queue.length + 1 +
          ((s.update i { c.shut with received := resp }).conns.map Conn.weight).sum <
        4 * s.queue.length + s.pc.weight + (s.conns.map Conn.weight).sum
      rw [hpc]
      show _ < 4 * s.queue.length + 2 + _
      omega
  | broken hpc _ _ =>
      have hsame : (s.hangUp.conns.map Conn.weight) = s.conns.map Conn.weight := by
        rw [State.hangUp, List.map_map]
        rfl
      show 4 * 0 + 0 + (s.hangUp.conns.map Conn.weight).sum < 4 * s.queue.length + s.pc.weight + _
      rw [hsame, hpc]
      show _ < 4 * s.queue.length + 2 + _
      omega
  | work _ hpc =>
      show 4 * s.queue.length + 0 + (s.conns.map Conn.weight).sum < 4 * s.queue.length + s.pc.weight + _
      rw [hpc]
      show _ < 4 * s.queue.length + 1 + _
      omega
  | exit _ hstop => rw [hgoing] at hstop; cases hstop

theorem progress [Inhabited α] [Nonempty ι] [Nonempty κ] (hanswers : Answers svc)
    (h : Mannerly svc s) (hinv : Inv svc s) :
    (∀ c ∈ s.conns, c.left = true) ∨ ∃ e s', ForwardStep svc s e s' := by
  have hserved : ∀ i, s.pc.client = some i →
      ∃ c : Conn α, s.conns[i]? = some c ∧ c.closed = false ∧ c.left = false := by
    intro i hpc
    have htaken := hinv.client i hpc
    have hlt : i < s.conns.length := by
      rw [State.taken] at htaken
      omega
    exact ⟨s.conns[i], List.getElem?_eq_getElem hlt,
      h.served hinv hpc (List.getElem?_eq_getElem hlt)⟩
  cases hpc : s.pc with
  | top =>
      cases hqueue : s.queue with
      | cons i q => exact .inr ⟨_, _, ⟨.accept hpc h.going hqueue, trivial⟩, trivial⟩
      | nil =>
          by_cases hall : ∀ c ∈ s.conns, c.left = true
          · exact .inl hall
          · push Not at hall
            obtain ⟨c, hmem, hleft⟩ := hall
            obtain ⟨i, hlt, hi⟩ := List.getElem_of_mem hmem
            have hi : s.conns[i]? = some c := by rw [List.getElem?_eq_getElem hlt, hi]
            have hclosed : c.closed = true := by
              rw [hinv.closed i c hi, State.taken, hqueue, hpc]
              exact .inr ⟨hlt, by simp [Pc.client]⟩
            refine .inr ⟨_, _, ⟨.leave hi (Bool.eq_false_iff.mpr hleft), fun c' hc' => ?_⟩, trivial⟩
            obtain rfl : c = c' := Option.some.inj (hi.symm.trans hc')
            exact hclosed
  | reading i =>
      obtain ⟨c, hi, hopen, hleft⟩ := hserved i (by rw [hpc]; rfl)
      rcases h.whole i c hi with hwrote | hwrote
      · refine .inr ⟨.send i (List.replicate svc.room default), _, ⟨.send _ hi hleft hopen,
          List.length_replicate, fun c' hc' => ?_⟩, trivial⟩
        obtain rfl : c = c' := Option.some.inj (hi.symm.trans hc')
        exact hwrote
      · obtain ⟨x⟩ := ‹Nonempty ι›
        have hlength : (c.wrote.take svc.room).length = svc.room := by
          rw [List.length_take, hwrote, Nat.min_self]
        obtain ⟨d', resp, heq, -⟩ := hanswers.respond s.state _ x hlength
        have hsome : c.wrote ≠ [] := List.ne_nil_of_length_pos (by rw [hwrote]; exact hanswers.room)
        exact .inr ⟨_, _, ⟨.read hpc hi (.inl hsome) heq, trivial⟩, trivial⟩
  | writing i resp =>
      obtain ⟨c, hi, -, hleft⟩ := hserved i (by rw [hpc]; rfl)
      exact .inr ⟨_, _, ⟨.write hpc hi hleft, trivial⟩, trivial⟩
  | working =>
      obtain ⟨k⟩ := ‹Nonempty κ›
      exact .inr ⟨_, _, ⟨.work k hpc, trivial⟩, trivial⟩
  | gone => exact absurd hpc h.alive

/-- Once the server waits and every client has left, nothing is left to do. -/
theorem not_forward (hpc : s.pc = .top) (hgoing : s.stopped = false) (hqueue : s.queue = [])
    (hall : ∀ c ∈ s.conns, c.left = true) {e : Event α ι κ} : ¬ ForwardStep svc s e s' := by
  rintro ⟨⟨hstep, hcourteous⟩, hforward⟩
  have hgone : ∀ {i : Nat} {c : Conn α}, s.conns[i]? = some c → c.left ≠ false := by
    intro i c hi hleft
    rw [hall c (List.mem_of_getElem? hi)] at hleft
    cases hleft
  cases hstep with
  | connect _ _ => exact hforward
  | send b hi hleft _ => exact hgone hi hleft
  | leave hi hleft => exact hgone hi hleft
  | stop => exact hcourteous
  | accept _ _ hnext => rw [hqueue] at hnext; cases hnext
  | skip _ _ _ => exact hforward
  | refuse hread _ _ _ => rw [hpc] at hread; cases hread
  | read hread _ _ _ => rw [hpc] at hread; cases hread
  | interrupt hread _ _ => rw [hpc] at hread; cases hread
  | write hwrite _ _ => rw [hpc] at hwrite; cases hwrite
  | broken hwrite _ _ => rw [hpc] at hwrite; cases hwrite
  | work _ hwork => rw [hpc] at hwork; cases hwork
  | exit _ hstop => rw [hgoing] at hstop; cases hstop

/-- After any run of courteous clients: the server has not been killed, a connection that
it closed has its response, and without new connections and idle turns only finitely many
steps are left, after which every client has its response and has left. -/
theorem everybody_answered [Inhabited α] [Nonempty ι] [Nonempty κ] (hanswers : Answers svc) {d : σ}
    {es : List (Event α ι κ)} (hrun : Run (CourteousStep svc) (init d) es s) :
    s.pc ≠ .gone ∧ (∀ c ∈ s.conns, c.closed = true → c.received ≠ []) ∧
      ∀ es' s', Run (ForwardStep svc) s es' s' → es'.length ≤ 6 * s.conns.length + 3 ∧
        ((∀ e s'', ¬ ForwardStep svc s' e s'') → ∀ c ∈ s'.conns, c.left = true ∧ c.received ≠ []) := by
  have hboth : ∀ s e s', CourteousStep svc s e s' → Mannerly svc s ∧ Inv svc s →
      Mannerly svc s' ∧ Inv svc s' :=
    fun _ _ _ hstep ⟨h, hinv⟩ => ⟨h.step hinv hanswers hstep, hinv.step hstep.1⟩
  have htold : ∀ s, Mannerly svc s → ∀ c ∈ s.conns, c.closed = true → c.received ≠ [] := by
    intro s h c hmem
    obtain ⟨i, hlt, hi⟩ := List.getElem_of_mem hmem
    exact h.told i c (by rw [List.getElem?_eq_getElem hlt, hi])
  obtain ⟨h, hinv⟩ := hrun.invariant (I := fun s => Mannerly svc s ∧ Inv svc s) hboth
    ⟨mannerly_init svc d, inv_init svc d⟩
  refine ⟨h.alive, htold s h, fun es' s' hforward => ⟨?_, fun hstuck c hmem => ?_⟩⟩
  · have hweight : es'.length + s'.weight ≤ s.weight := by
      clear hrun
      induction hforward with
      | nil s => exact Nat.le_of_eq (Nat.zero_add _)
      | cons hstep _ ih =>
          obtain ⟨h', hinv'⟩ := hboth _ _ _ hstep.1 ⟨h, hinv⟩
          have hless := weight_step hanswers h.going hstep
          have hrest := ih h' hinv'
          rw [List.length_cons]
          omega
    have hle := weight_le hinv
    omega
  · obtain ⟨h', hinv'⟩ := hforward.invariant (I := fun s => Mannerly svc s ∧ Inv svc s)
      (fun _ _ _ hstep => hboth _ _ _ hstep.1) ⟨h, hinv⟩
    rcases progress hanswers h' hinv' with hall | ⟨e, s'', hstep⟩
    · have hleft := hall c hmem
      obtain ⟨i, hlt, hi⟩ := List.getElem_of_mem hmem
      have hi : s'.conns[i]? = some c := by rw [List.getElem?_eq_getElem hlt, hi]
      exact ⟨hleft, h'.told i c hi (h'.stays i c hi hleft)⟩
    · exact absurd hstep (hstuck e s'')

end

end Serving
