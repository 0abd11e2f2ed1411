import Memflux.Lib.Serving

/-! # Turns of a server

Seen from its state, a server with one thread answers at most one client and then works,
turn after turn. What the connections add to this is who is answered when.
-/

namespace Serving

open Simulation

variable {α σ ι κ : Type}

/-- The client of a turn: its connection, what was read from it, and the inputs. -/
abbrev Client (α ι : Type) := Nat × List α × ι

structure Turn (α ι κ : Type) where
  client : Option (Client α ι)
  work : κ

/-- An answer: a client that was read from, and the response to it, if there was one. -/
abbrev Entry (α ι : Type) := Client α ι × Option (List α)

def serve (svc : Service α σ ι κ) (d : σ) : Option (Client α ι) → σ × Option (List α)
  | none => (d, none)
  | some (_, b, x) => svc.respond d b x

/-- A turn as one step, with the response. -/
def TurnStep (svc : Service α σ ι κ) (d : σ) (l : Turn α ι κ × Option (List α)) (d' : σ) : Prop :=
  (serve svc d l.1.client).2 = l.2 ∧ svc.work (serve svc d l.1.client).1 l.1.work = d'

def Event.client : Event α ι κ → Option (Client α ι)
  | .read i b x => some (i, b, x)
  | _ => none

def Event.work? : Event α ι κ → Option κ
  | .work k => some k
  | _ => none

def entries (ls : List (Turn α ι κ × Option (List α))) : List (Entry α ι) :=
  ls.filterMap fun l => l.1.client.map fun c => (c, l.2)

def entry (svc : Service α σ ι κ) (d : σ) (cur : Option (Client α ι)) : Option (Entry α ι) :=
  cur.map fun c => (c, (serve svc d cur).2)

/-- What the thread has done: finished turns and, past the read, part of one more. -/
structure Past (svc : Service α σ ι κ) (d₀ : σ) (es : List (Event α ι κ)) (s : State α σ)
    (ls : List (Turn α ι κ × Option (List α))) (d : σ) (cur : Option (Client α ι)) : Prop where
  run : Run (TurnStep svc) d₀ ls d
  state : s.state = (serve svc d cur).1
  idle : s.pc = .top ∨ (∃ i, s.pc = .reading i) → cur = none
  reads : es.filterMap Event.client = ls.filterMap (fun l => l.1.client) ++ cur.toList
  works : es.filterMap Event.work? = ls.map fun l => l.1.work

/-- What the clients were told, against the answers: a response that was received is one to
the first bytes that this client wrote, and one that was given is received, unless its
client had left; the clients are answered in the order of their connections; and only a
client that left before its response ends a server that nobody stops. -/
structure Told (log : List (Entry α ι)) (s : State α σ) : Prop where
  writing : ∀ i resp, s.pc = .writing i resp →
    ∃ (b : List α) (x : ι) (c : Conn α), ((i, b, x), some resp) ∈ log ∧ s.conns[i]? = some c ∧ b <+: c.wrote
  answered : ∀ (i : Nat) (c : Conn α), s.conns[i]? = some c → c.received ≠ [] →
    ∃ (b : List α) (x : ι), ((i, b, x), some c.received) ∈ log ∧ b <+: c.wrote
  delivered : ∀ i b x resp, ((i, b, x), some resp) ∈ log → ∃ c : Conn α, s.conns[i]? = some c ∧
    (c.received = resp ∨ s.pc = .writing i resp ∨ s.pc = .gone ∧ c.left = true)
  order : (log.map fun e => e.1.1).Pairwise (· < ·)
  below : ∀ e ∈ log, e.1.1 < s.taken ∧ s.pc ≠ .reading e.1.1
  killed : s.pc = .gone → s.stopped = true ∨
    ∃ (i : Nat) (b : List α) (x : ι) (resp : List α) (c : Conn α), ((i, b, x), some resp) ∈ log ∧
      s.conns[i]? = some c ∧ c.left = true ∧ c.received = []

/-- Connections are added, and what a peer wrote grows. -/
structure Grows (cs cs' : List (Conn α)) : Prop where
  keeps : ∀ (i : Nat) (c : Conn α), cs[i]? = some c → ∃ c' : Conn α, cs'[i]? = some c' ∧ c.wrote <+: c'.wrote ∧
    c'.received = c.received ∧ (c.left = true → c'.left = true)
  old : ∀ (i : Nat) (c' : Conn α), cs'[i]? = some c' → c'.received ≠ [] → ∃ c : Conn α, cs[i]? = some c

theorem Grows.refl (cs : List (Conn α)) : Grows cs cs where
  keeps _ c hc := ⟨c, hc, List.prefix_rfl, rfl, id⟩
  old _ c hc _ := ⟨c, hc⟩

theorem Grows.update {s : State α σ} {i : Nat} {c c' : Conn α} (hi : s.conns[i]? = some c)
    (hwrote : c.wrote <+: c'.wrote) (hreceived : c'.received = c.received)
    (hleft : c.left = true → c'.left = true) : Grows s.conns (s.update i c').conns where
  keeps j b hj := by
    rw [getElem?_update hi]
    split
    · rename_i heq
      subst heq
      obtain rfl : c = b := Option.some.inj (hi.symm.trans hj)
      exact ⟨c', rfl, hwrote, hreceived, hleft⟩
    · exact ⟨b, hj, List.prefix_rfl, rfl, id⟩
  old j b hj _ := by
    rw [getElem?_update hi] at hj
    split at hj
    · rename_i heq
      subst heq
      exact ⟨c, hi⟩
    · exact ⟨b, hj⟩

theorem Grows.shut (cs : List (Conn α)) : Grows cs (cs.map Conn.shut) where
  keeps i c hc := ⟨c.shut, by rw [List.getElem?_map, hc]; rfl, List.prefix_rfl, rfl, id⟩
  old i c' hc' _ := by
    rw [List.getElem?_map] at hc'
    obtain ⟨c, hc, -⟩ := Option.map_eq_some_iff.mp hc'
    exact ⟨c, hc⟩

theorem Grows.connect (cs : List (Conn α)) : Grows cs (cs ++ [({} : Conn α)]) where
  keeps i c hc :=
    ⟨c, by rw [List.getElem?_append_left (List.getElem?_eq_some_iff.mp hc).1, hc],
      List.prefix_rfl, rfl, id⟩
  old i c' hc' hreceived := by
    rcases Nat.lt_or_ge i cs.length with hlt | hge
    · rw [List.getElem?_append_left hlt] at hc'
      exact ⟨c', hc'⟩
    · rw [List.getElem?_append_right hge] at hc'
      obtain rfl : c' = {} := List.mem_singleton.mp (List.mem_of_getElem? hc')
      exact absurd rfl hreceived

section

variable {svc : Service α σ ι κ} {s s' : State α σ} {log : List (Entry α ι)}

theorem Told.grows (h : Told log s) (hconns : Grows s.conns s'.conns) (htaken : s.taken ≤ s'.taken)
    (hwriting : ∀ i resp, s'.pc = .writing i resp ↔ s.pc = .writing i resp)
    (hgone : s.pc = .gone → s'.pc = .gone) (hstopped : s.stopped = true → s'.stopped = true)
    (hkilled : s'.pc = .gone → s.pc = .gone ∨ s'.stopped = true)
    (hreading : ∀ i, s'.pc = .reading i → s.pc = .reading i ∨ s.taken ≤ i) : Told log s' where
  writing i resp hpc := by
    obtain ⟨b, x, c, hmem, hc, hb⟩ := h.writing i resp ((hwriting i resp).mp hpc)
    obtain ⟨c', hc', hwrote, -, -⟩ := hconns.keeps i c hc
    exact ⟨b, x, c', hmem, hc', hb.trans hwrote⟩
  answered i c' hc' hreceived := by
    obtain ⟨c, hc⟩ := hconns.old i c' hc' hreceived
    obtain ⟨c₁, hc₁, hwrote, hsame, -⟩ := hconns.keeps i c hc
    obtain rfl : c₁ = c' := Option.some.inj (hc₁.symm.trans hc')
    rw [hsame] at hreceived ⊢
    obtain ⟨b, x, hmem, hb⟩ := h.answered i c hc hreceived
    exact ⟨b, x, hmem, hb.trans hwrote⟩
  delivered i b x resp hmem := by
    obtain ⟨c, hc, hcases⟩ := h.delivered i b x resp hmem
    obtain ⟨c', hc', -, hsame, hleft⟩ := hconns.keeps i c hc
    refine ⟨c', hc', ?_⟩
    rcases hcases with hreceived | hpc | ⟨hpc, hgo⟩
    · exact .inl (hsame.trans hreceived)
    · exact .inr (.inl ((hwriting i resp).mpr hpc))
    · exact .inr (.inr ⟨hgone hpc, hleft hgo⟩)
  order := h.order
  below e he := by
    obtain ⟨hlt, hne⟩ := h.below e he
    refine ⟨Nat.lt_of_lt_of_le hlt htaken, fun hpc => ?_⟩
    rcases hreading _ hpc with hpc | hle
    · exact hne hpc
    · omega
  killed hpc := by
    rcases hkilled hpc with hbefore | hstop
    · rcases h.killed hbefore with hstop | ⟨i, b, x, resp, c, hmem, hc, hleft, hreceived⟩
      · exact .inl (hstopped hstop)
      · obtain ⟨c', hc', -, hsame, hgoes⟩ := hconns.keeps i c hc
        exact .inr ⟨i, b, x, resp, c', hmem, hc', hgoes hleft, hsame.trans hreceived⟩
    · exact .inl hstop

/-- The answers so far are to earlier connections than the one that is read. -/
theorem Told.earlier (h : Told log s) (hinv : Inv svc s) {i : Nat} (hpc : s.pc = .reading i) :
    ∀ e ∈ log, e.1.1 < i := by
  intro e he
  obtain ⟨hlt, hne⟩ := h.below e he
  have htaken := hinv.client i (by rw [hpc]; rfl)
  have hother : e.1.1 ≠ i := fun heq => hne (by rw [heq, hpc])
  omega

theorem Told.unique (h : Told log s) {e e' : Entry α ι} (he : e ∈ log) (he' : e' ∈ log)
    (heq : e.1.1 = e'.1.1) : e = e' := by
  have hnodup : (log.map fun e => e.1.1).Nodup := h.order.imp Nat.ne_of_lt
  exact List.inj_on_of_nodup_map hnodup he he' heq

theorem Told.order_snoc (h : Told log s) (hinv : Inv svc s) {e : Entry α ι}
    (hpc : s.pc = .reading e.1.1) : ((log ++ [e]).map fun e => e.1.1).Pairwise (· < ·) := by
  rw [List.map_append, List.pairwise_append]
  refine ⟨h.order, List.pairwise_singleton _ _, fun a ha b hb => ?_⟩
  obtain ⟨e', he', rfl⟩ := List.mem_map.mp ha
  obtain rfl : b = e.1.1 := List.mem_singleton.mp hb
  exact h.earlier hinv hpc e' he'

theorem Told.read (h : Told log s) (hinv : Inv svc s) {i : Nat} {c : Conn α} {b : List α} (x : ι)
    (hpc : s.pc = .reading i) (hi : s.conns[i]? = some c) (hb : b <+: c.wrote) (d : σ)
    (resp : List α) :
    Told (log ++ [((i, b, x), some resp)]) { s with state := d, pc := .writing i resp } where
  writing j resp' hj := by
    obtain ⟨rfl, rfl⟩ := Pc.writing.inj hj
    exact ⟨b, x, c, List.mem_append_right _ (List.mem_singleton_self _), hi, hb⟩
  answered j c' hj hreceived := by
    obtain ⟨b', x', hmem, hb'⟩ := h.answered j c' hj hreceived
    exact ⟨b', x', List.mem_append_left _ hmem, hb'⟩
  delivered j b' x' resp' hmem := by
    rcases List.mem_append.mp hmem with hmem | hmem
    · obtain ⟨c', hc', hcases⟩ := h.delivered j b' x' resp' hmem
      refine ⟨c', hc', ?_⟩
      rcases hcases with hreceived | hwriting | ⟨hgone, -⟩
      · exact .inl hreceived
      · rw [hpc] at hwriting
        cases hwriting
      · rw [hpc] at hgone
        cases hgone
    · obtain ⟨⟨rfl, -, -⟩, hresp⟩ : (j = i ∧ b' = b ∧ x' = x) ∧ resp' = resp := by
        simpa using hmem
      exact ⟨c, hi, .inr (.inl (by rw [hresp]))⟩
  order := h.order_snoc hinv hpc
  below e he := by
    refine ⟨?_, nofun⟩
    rcases List.mem_append.mp he with he | he
    · exact (h.below e he).1
    · rw [List.mem_singleton.mp he]
      have htaken := hinv.client i (by rw [hpc]; rfl)
      show i < s.taken
      omega
  killed hgone := nomatch hgone

theorem Told.refuse (h : Told log s) (hinv : Inv svc s) {i : Nat} {c : Conn α} (b : List α) (x : ι)
    (hpc : s.pc = .reading i) (hi : s.conns[i]? = some c) (d : σ) :
    Told (log ++ [((i, b, x), none)]) { s.update i c.shut with state := d, pc := .working } := by
  have hnone : ∀ {j : Nat} {b' : List α} {x' : ι} {resp : List α},
      ((j, b', x'), some resp) ∈ log ++ [((i, b, x), none)] → ((j, b', x'), some resp) ∈ log := by
    intro j b' x' resp hmem
    rcases List.mem_append.mp hmem with hmem | hmem
    · exact hmem
    · simp at hmem
  have hshut : Told log { s.update i c.shut with state := d, pc := .working } :=
    h.grows (Grows.update hi List.prefix_rfl rfl id) (Nat.le_of_eq (taken_update s i c.shut).symm)
      (fun j resp => by rw [hpc]; exact iff_of_false nofun nofun)
      (fun hgone => by rw [hpc] at hgone; cases hgone) id nofun nofun
  refine ⟨nofun, ?_, fun j b' x' resp hmem => hshut.delivered j b' x' resp (hnone hmem),
    h.order_snoc hinv hpc, fun e he => ⟨?_, nofun⟩, nofun⟩
  · intro j c' hj hreceived
    obtain ⟨b', x', hmem, hb'⟩ := hshut.answered j c' hj hreceived
    exact ⟨b', x', List.mem_append_left _ hmem, hb'⟩
  · rcases List.mem_append.mp he with he | he
    · exact (hshut.below e he).1
    · rw [List.mem_singleton.mp he]
      have htaken := hinv.client i (by rw [hpc]; rfl)
      show i < (s.update i c.shut).taken
      rw [taken_update]
      omega

theorem Told.write (h : Told log s) {i : Nat} {c : Conn α} {resp : List α}
    (hpc : s.pc = .writing i resp) (hi : s.conns[i]? = some c) :
    Told log { s.update i { c.shut with received := resp } with pc := .working } := by
  obtain ⟨b, x, c₁, hmem, hc₁, hb⟩ := h.writing i resp hpc
  obtain rfl : c₁ = c := Option.some.inj (hc₁.symm.trans hi)
  have hget : ∀ j, (s.update i { c₁.shut with received := resp }).conns[j]? =
      if i = j then some { c₁.shut with received := resp } else s.conns[j]? :=
    fun j => getElem?_update hi
  have hself : (s.update i { c₁.shut with received := resp }).conns[i]? =
      some { c₁.shut with received := resp } := by rw [hget, if_pos rfl]
  refine ⟨nofun, ?_, ?_, h.order, ?_, nofun⟩
  · intro j c' hj hreceived
    have hafter : (s.update i { c₁.shut with received := resp }).conns[j]? = some c' := hj
    rw [hget] at hafter
    split at hafter
    · rename_i heq
      subst heq
      rw [← Option.some.inj hafter]
      exact ⟨b, x, hmem, hb⟩
    · exact h.answered j c' hafter hreceived
  · intro j b' x' resp' hmem'
    obtain ⟨c', hc', hcases⟩ := h.delivered j b' x' resp' hmem'
    by_cases heq : i = j
    · subst heq
      have hsame := h.unique hmem hmem' rfl
      exact ⟨_, hself, .inl (Option.some.inj (congrArg Prod.snd hsame))⟩
    · refine ⟨c', ?_, .inl ?_⟩
      · show (s.update i { c₁.shut with received := resp }).conns[j]? = some c'
        rw [hget, if_neg heq, hc']
      · rcases hcases with hreceived | hwriting | ⟨hgone, -⟩
        · exact hreceived
        · rw [hpc] at hwriting
          exact absurd (Pc.writing.inj hwriting).1 heq
        · rw [hpc] at hgone
          cases hgone
  · intro e he
    refine ⟨?_, nofun⟩
    show e.1.1 < (s.update i { c₁.shut with received := resp }).taken
    rw [taken_update]
    exact (h.below e he).1

theorem Told.broken (h : Told log s) (hinv : Inv svc s) {i : Nat} {c : Conn α} {resp : List α}
    (hpc : s.pc = .writing i resp) (hi : s.conns[i]? = some c) (hleft : c.left = true) :
    Told log s.hangUp where
  writing _ _ hj := nomatch hj
  answered j c' hj hreceived := by
    obtain ⟨c₁, hc₁⟩ := (Grows.shut s.conns).old j c' hj hreceived
    obtain ⟨c₂, hc₂, hwrote, hsame, -⟩ := (Grows.shut s.conns).keeps j c₁ hc₁
    obtain rfl : c₂ = c' := Option.some.inj (hc₂.symm.trans hj)
    rw [hsame] at hreceived ⊢
    obtain ⟨b, x, hmem, hb⟩ := h.answered j c₁ hc₁ hreceived
    exact ⟨b, x, hmem, hb.trans hwrote⟩
  delivered j b x resp' hmem := by
    obtain ⟨c', hc', hcases⟩ := h.delivered j b x resp' hmem
    obtain ⟨c₂, hc₂, -, hsame, hgoes⟩ := (Grows.shut s.conns).keeps j c' hc'
    refine ⟨c₂, hc₂, ?_⟩
    rcases hcases with hreceived | hwriting | ⟨hgone, -⟩
    · exact .inl (hsame.trans hreceived)
    · rw [hpc] at hwriting
      obtain ⟨rfl, rfl⟩ := Pc.writing.inj hwriting
      obtain rfl : c = c' := Option.some.inj (hi.symm.trans hc')
      exact .inr (.inr ⟨rfl, hgoes hleft⟩)
    · rw [hpc] at hgone
      cases hgone
  order := h.order
  below e he := by
    obtain ⟨hlt, -⟩ := h.below e he
    have htaken : s.hangUp.taken = s.conns.length := List.length_map _
    refine ⟨?_, nofun⟩
    rw [htaken]
    exact Nat.lt_of_lt_of_le hlt (Nat.sub_le _ _)
  killed _ := by
    obtain ⟨b, x, c₁, hmem, hc₁, -⟩ := h.writing i resp hpc
    obtain rfl : c₁ = c := Option.some.inj (hc₁.symm.trans hi)
    have hopen : c₁.closed = false := by
      rw [Bool.eq_false_iff, ne_eq, hinv.closed i c₁ hi, hpc]
      rintro (hgone | ⟨-, hne⟩)
      · cases hgone
      · exact hne rfl
    obtain ⟨c₂, hc₂, -, hsame, hgoes⟩ := (Grows.shut s.conns).keeps i c₁ hi
    exact .inr ⟨i, b, x, resp, c₂, hmem, hc₂, hgoes hleft,
      hsame.trans (hinv.unanswered i c₁ hi hopen)⟩

def answer (svc : Service α σ ι κ) (s : State α σ) (e : Event α ι κ) : Option (Entry α ι) :=
  e.client.map fun c => (c, (serve svc s.state (some c)).2)

theorem Told.step (h : Told log s) (hinv : Inv svc s) {e : Event α ι κ} (hstep : Step svc s e s') :
    Told (log ++ (answer svc s e).toList) s' := by
  have hsame : ∀ {s₁ : State α σ}, Grows s.conns s₁.conns → s.taken ≤ s₁.taken →
      (∀ i resp, s₁.pc = .writing i resp ↔ s.pc = .writing i resp) → (s.pc = .gone → s₁.pc = .gone) →
      (s.stopped = true → s₁.stopped = true) → (s₁.pc = .gone → s.pc = .gone ∨ s₁.stopped = true) →
      (∀ i, s₁.pc = .reading i → s.pc = .reading i ∨ s.taken ≤ i) → Told (log ++ []) s₁ := by
    intro s₁ hconns htaken hwriting hgone hstopped hkilled hreading
    rw [List.append_nil]
    exact h.grows hconns htaken hwriting hgone hstopped hkilled hreading
  cases hstep with
  | connect halive hroom =>
      refine hsame (Grows.connect s.conns) (Nat.le_of_eq ?_) (fun _ _ => Iff.rfl) id id .inl
        fun _ hi => .inl hi
      simp only [State.taken, List.length_append, List.length_singleton, Nat.add_sub_add_right]
  | send b hi _ _ =>
      exact hsame (Grows.update hi (List.prefix_append _ b) rfl id) (Nat.le_of_eq (taken_update ..).symm)
        (fun _ _ => Iff.rfl) id id .inl
        fun _ hi => .inl hi
  | leave hi _ =>
      exact hsame (Grows.update hi List.prefix_rfl rfl fun _ => rfl)
        (Nat.le_of_eq (taken_update ..).symm) (fun _ _ => Iff.rfl) id id .inl
        fun _ hi => .inl hi
  | stop =>
      exact hsame (Grows.refl _) (Nat.le_refl _) (fun _ _ => Iff.rfl) id (fun _ => rfl) .inl
        fun _ hi => .inl hi
  | @accept i q hpc _ hqueue =>
      obtain ⟨hi, -⟩ := hinv.head hqueue
      refine hsame (Grows.refl _) ?_ (fun _ _ => ?_) (fun hgone => ?_) id (by simp) fun j hj => .inr ?_
      · show s.conns.length - s.queue.length ≤ s.conns.length - q.length
        rw [hqueue, List.length_cons]
        omega
      · rw [hpc]
        simp
      · rw [hpc] at hgone
        cases hgone
      · obtain rfl : i = j := Pc.reading.inj hj
        exact Nat.le_of_eq hi.symm
  | skip hpc _ _ =>
      refine hsame (Grows.refl _) (Nat.le_refl _) (fun _ _ => ?_) (fun hgone => ?_) id (by simp) (by simp)
      · rw [hpc]
        simp
      · rw [hpc] at hgone
        cases hgone
  | @refuse i c x d hpc hi _ hresp =>
      have hanswer : answer svc s (.read i (c.wrote.take svc.room) x : Event α ι κ) =
          some ((i, c.wrote.take svc.room, x), none) := by
        simp [answer, Event.client, serve, hresp]
      rw [hanswer]
      exact h.refuse hinv _ x hpc hi d
  | @read i c x d resp hpc hi _ hresp =>
      have hanswer : answer svc s (.read i (c.wrote.take svc.room) x : Event α ι κ) =
          some ((i, c.wrote.take svc.room, x), some resp) := by
        simp [answer, Event.client, serve, hresp]
      rw [hanswer]
      exact h.read hinv x hpc hi (List.take_prefix _ _) d resp
  | interrupt hpc _ hi =>
      refine hsame (Grows.update hi List.prefix_rfl rfl id) (Nat.le_of_eq (taken_update ..).symm)
        (fun _ _ => ?_) (fun hgone => ?_) id (by simp) (by simp)
      · rw [hpc]
        simp
      · rw [hpc] at hgone
        cases hgone
  | write hpc hi _ =>
      have hwrite := h.write hpc hi
      rwa [← List.append_nil log] at hwrite
  | broken hpc hi hleft =>
      have hbroken := h.broken hinv hpc hi hleft
      rwa [← List.append_nil log] at hbroken
  | work k hpc =>
      refine hsame (Grows.refl _) (Nat.le_refl _) (fun _ _ => ?_) (fun hgone => ?_) id (by simp) (by simp)
      · rw [hpc]
        simp
      · rw [hpc] at hgone
        cases hgone
  | exit hpc hstopped =>
      refine hsame (Grows.shut _) ?_ (fun _ _ => ?_) (fun hgone => ?_) id (fun _ => .inr hstopped)
        (by simp [State.hangUp])
      · rw [show s.hangUp.taken = s.conns.length from List.length_map _]
        exact Nat.sub_le _ _
      · rw [hpc]
        simp [State.hangUp]
      · rfl

variable {d₀ d : σ} {es : List (Event α ι κ)} {ls : List (Turn α ι κ × Option (List α))}
  {cur : Option (Client α ι)}

theorem Past.quiet (h : Past svc d₀ es s ls d cur) {e : Event α ι κ} (hclient : e.client = none)
    (hwork : e.work? = none) (hstate : s'.state = s.state)
    (hidle : s'.pc = .top ∨ (∃ i, s'.pc = .reading i) → s.pc = .top ∨ ∃ i, s.pc = .reading i) :
    Past svc d₀ (es ++ [e]) s' ls d cur where
  run := h.run
  state := hstate.trans h.state
  idle hpc := h.idle (hidle hpc)
  reads := by rw [List.filterMap_append, List.filterMap_cons, hclient, List.filterMap_nil,
    List.append_nil, h.reads]
  works := by rw [List.filterMap_append, List.filterMap_cons, hwork, List.filterMap_nil,
    List.append_nil, h.works]

theorem Past.read (h : Past svc d₀ es s ls d cur) {i : Nat} {b : List α} {x : ι}
    (hpc : s.pc = .reading i) (hstate : s'.state = (svc.respond s.state b x).1)
    (hpc' : s'.pc ≠ .top ∧ ∀ j, s'.pc ≠ .reading j) :
    Past svc d₀ (es ++ [.read i b x]) s' ls d (some (i, b, x)) := by
  obtain rfl : cur = none := h.idle (.inr ⟨i, hpc⟩)
  refine ⟨h.run, ?_, ?_, ?_, ?_⟩
  · rw [hstate, h.state]
    rfl
  · rintro (htop | ⟨j, hj⟩)
    · exact absurd htop hpc'.1
    · exact absurd hj (hpc'.2 j)
  · rw [List.filterMap_append, h.reads, Option.toList_none, List.append_nil]
    rfl
  · rw [List.filterMap_append, h.works]
    exact List.append_nil _

theorem Past.work (h : Past svc d₀ es s ls d cur) {k : κ} (hstate : s'.state = svc.work s.state k) :
    Past svc d₀ (es ++ [.work k]) s' (ls ++ [(⟨cur, k⟩, (serve svc d cur).2)]) s'.state none where
  run := h.run.append (.single ⟨rfl, by rw [hstate, h.state]⟩)
  state := rfl
  idle _ := rfl
  reads := by
    rw [List.filterMap_append, List.filterMap_append, h.reads, Option.toList_none, List.append_nil]
    cases cur <;> simp [Event.client]
  works := by
    rw [List.filterMap_append, h.works, List.map_append]
    rfl

theorem entries_snoc (svc : Service α σ ι κ) (ls : List (Turn α ι κ × Option (List α))) (d : σ)
    (cur : Option (Client α ι)) (k : κ) :
    entries (ls ++ [(⟨cur, k⟩, (serve svc d cur).2)]) = entries ls ++ (entry svc d cur).toList := by
  rw [entries, List.filterMap_append, ← entries]
  cases cur <;> rfl

theorem Past.step (h : Past svc d₀ es s ls d cur) {e : Event α ι κ} (hstep : Step svc s e s') :
    ∃ ls' d' cur', Past svc d₀ (es ++ [e]) s' ls' d' cur' ∧
      entries ls' ++ (entry svc d' cur').toList =
        entries ls ++ (entry svc d cur).toList ++ (answer svc s e).toList := by
  have hquiet : ∀ {e : Event α ι κ} {s₁ : State α σ}, e.client = none → e.work? = none →
      s₁.state = s.state →
      (s₁.pc = .top ∨ (∃ i, s₁.pc = .reading i) → s.pc = .top ∨ ∃ i, s.pc = .reading i) →
      ∃ ls' d' cur', Past svc d₀ (es ++ [e]) s₁ ls' d' cur' ∧
        entries ls' ++ (entry svc d' cur').toList =
          entries ls ++ (entry svc d cur).toList ++ (answer svc s e).toList := by
    intro e s₁ hclient hwork hstate hidle
    refine ⟨ls, d, cur, h.quiet hclient hwork hstate hidle, ?_⟩
    rw [answer, hclient, Option.map_none, Option.toList_none, List.append_nil]
  have hread : ∀ {i : Nat} {b : List α} {x : ι} {s₁ : State α σ}, s.pc = .reading i →
      s₁.state = (svc.respond s.state b x).1 → (s₁.pc ≠ .top ∧ ∀ j, s₁.pc ≠ .reading j) →
      ∃ ls' d' cur', Past svc d₀ (es ++ [.read i b x]) s₁ ls' d' cur' ∧
        entries ls' ++ (entry svc d' cur').toList =
          entries ls ++ (entry svc d cur).toList ++
            (answer svc s (.read i b x : Event α ι κ)).toList := by
    intro i b x s₁ hpc hstate hpc'
    refine ⟨ls, d, some (i, b, x), h.read hpc hstate hpc', ?_⟩
    obtain rfl : cur = none := h.idle (.inr ⟨i, hpc⟩)
    obtain rfl : s.state = d := h.state
    exact (congrArg (· ++ _) (List.append_nil _)).symm
  cases hstep with
  | connect _ _ => exact hquiet rfl rfl rfl id
  | send _ _ _ _ => exact hquiet rfl rfl rfl id
  | leave _ _ => exact hquiet rfl rfl rfl id
  | stop => exact hquiet rfl rfl rfl id
  | accept hpc _ _ => exact hquiet rfl rfl rfl fun _ => .inl hpc
  | skip hpc _ _ => exact hquiet rfl rfl rfl fun _ => .inl hpc
  | refuse hpc _ _ hresp => exact hread hpc (by rw [hresp]) ⟨nofun, nofun⟩
  | read hpc _ _ hresp => exact hread hpc (by rw [hresp]) ⟨nofun, nofun⟩
  | interrupt hpc _ _ => exact hquiet rfl rfl rfl fun _ => .inr ⟨_, hpc⟩
  | write _ _ _ => exact hquiet rfl rfl rfl (by rintro (htop | ⟨_, hj⟩) <;> contradiction)
  | broken _ _ _ => exact hquiet rfl rfl rfl (by rintro (htop | ⟨_, hj⟩) <;> contradiction)
  | work k _ =>
      refine ⟨_, _, none, h.work rfl, ?_⟩
      rw [entries_snoc]
      rfl
  | exit hpc _ => exact hquiet rfl rfl rfl fun _ => .inl hpc

end

/-- Whatever the peers do and in whatever order, the server's state is that of turns, one
after the other, and the clients are told what these turns answer. The turn that is not
finished is completed here with any work. -/
theorem run_turns {svc : Service α σ ι κ} {d : σ} {es : List (Event α ι κ)} {s : State α σ}
    (h : Run (Step svc) (init d) es s) (k : κ) :
    ∃ ls : List (Turn α ι κ × Option (List α)), Run (TurnStep svc) d ls (svc.work s.state k) ∧
      (ls.filterMap fun l => l.1.client) = es.filterMap Event.client ∧
        (ls.map fun l => l.1.work) = es.filterMap Event.work? ++ [k] ∧ Told (entries ls) s := by
  have hpast : ∃ ls d₁ cur, Past svc d es s ls d₁ cur ∧
      Told (entries ls ++ (entry svc d₁ cur).toList) s ∧ Inv svc s := by
    refine h.history (P := fun es s => ∃ ls d₁ cur, Past svc d es s ls d₁ cur ∧
      Told (entries ls ++ (entry svc d₁ cur).toList) s ∧ Inv svc s) ?_ ?_
    · exact ⟨[], d, none, ⟨.nil d, rfl, fun _ => rfl, rfl, rfl⟩,
        ⟨nofun, nofun, nofun, .nil, nofun, nofun⟩, inv_init svc d⟩
    · rintro es s₁ e s₂ - ⟨ls, d₁, cur, hpast, htold, hinv⟩ hstep
      obtain ⟨ls', d', cur', hpast', hentries⟩ := hpast.step hstep
      refine ⟨ls', d', cur', hpast', ?_, hinv.step hstep⟩
      rw [hentries]
      exact htold.step hinv hstep
  obtain ⟨ls, d₁, cur, hpast, htold, -⟩ := hpast
  refine ⟨ls ++ [(⟨cur, k⟩, (serve svc d₁ cur).2)],
    hpast.run.append (.single ⟨rfl, by rw [hpast.state]⟩), ?_, ?_, ?_⟩
  · rw [hpast.reads, List.filterMap_append]
    cases cur <;> rfl
  · rw [hpast.works, List.map_append]
    rfl
  · rwa [entries_snoc]

end Serving
