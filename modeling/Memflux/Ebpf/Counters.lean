import Mathlib

/-! # The fault counters

The hash map that the page-fault handler and `drain_faults` share, and the steps of
both: one map operation, or one increment through the pointer that a lookup returned.
Any number of handlers are under way, each with its own key. An update of an existing
key may replace its element; a handler that looked it up before then holds an element
that is in the map no longer, or is there for another key.
-/

namespace Memflux.Ebpf

/-! ## The map -/

/-- `minor_faults`: its keys, oldest first, and their counts. -/
structure Table where
  keys : List Nat := []
  count : Nat → Nat := fun _ => 0

def maxEntries : Nat := 8192

namespace Table

def lookup (t : Table) (k : Nat) : Option Nat := if k ∈ t.keys then some (t.count k) else none

def set (t : Table) (k v : Nat) : Table := { t with count := Function.update t.count k v }

/-- `bpf_map_update_elem` of a zero with `BPF_NOEXIST`: no change where the key is
there or the map is full. -/
def insert (t : Table) (k : Nat) : Table :=
  if k ∈ t.keys ∨ maxEntries ≤ t.keys.length then t
  else { keys := t.keys ++ [k], count := Function.update t.count k 0 }

/-- `v->minor++`. -/
def bump (t : Table) (k : Nat) : Table := t.set k ((t.count k + 1) % 2 ^ 64)

def left (t : Table) (k : Nat) : Nat := (t.lookup k).getD 0

theorem left_of_mem {t : Table} {k : Nat} (h : k ∈ t.keys) : t.left k = t.count k := by
  simp [left, lookup, h]

theorem left_of_not_mem {t : Table} {k : Nat} (h : k ∉ t.keys) : t.left k = 0 := by
  simp [left, lookup, h]

@[simp] theorem set_keys (t : Table) (k v : Nat) : (t.set k v).keys = t.keys := rfl

@[simp] theorem set_count (t : Table) (k v : Nat) : (t.set k v).count k = v := by
  simp [set]

theorem set_count_other (t : Table) {k j : Nat} (v : Nat) (h : j ≠ k) :
    (t.set k v).count j = t.count j := by
  simp [set, h]

theorem set_left_other (t : Table) {k j : Nat} (v : Nat) (h : j ≠ k) :
    (t.set k v).left j = t.left j := by
  simp [left, lookup, set_count_other t v h]

theorem set_left {t : Table} {k : Nat} (v : Nat) (h : k ∈ t.keys) : (t.set k v).left k = v := by
  rw [left_of_mem (by simpa using h), set_count]

@[simp] theorem bump_keys (t : Table) (k : Nat) : (t.bump k).keys = t.keys := rfl

theorem insert_new {t : Table} {k : Nat} (hk : k ∉ t.keys) (hroom : t.keys.length < maxEntries) :
    t.insert k = { keys := t.keys ++ [k], count := Function.update t.count k 0 } := by
  unfold insert
  rw [if_neg]
  rw [not_or]
  exact ⟨hk, by omega⟩

theorem mem_insert {t : Table} {k j : Nat} (h : j ∈ t.keys) : j ∈ (t.insert k).keys := by
  unfold insert
  split
  · exact h
  · exact List.mem_append_left [k] h

/-- A new key starts at zero, which is what the map held for it before. -/
theorem insert_left (t : Table) (k j : Nat) : (t.insert k).left j = t.left j := by
  unfold insert
  split
  · rfl
  · rename_i hroom
    rw [not_or] at hroom
    by_cases hj : j = k
    · rw [hj, left_of_not_mem hroom.1, left_of_mem (by simp)]
      simp
    · simp [left, lookup, hj]

end Table

/-! ## Handlers and drains -/

/-- Where a handler run stands. -/
inductive Phase where
  | idle
  | missed (key : Nat)
  | inserted (key : Nat)
  /-- Its pointer is to the element of the key, or to one that an update took out. -/
  | holding (key : Nat) (current : Bool)

/-- Where `drain_faults` stands; `out` is zero for the keys it has no entry for. -/
inductive Drain where
  | idle
  | walking (out : Nat → Nat)
  | found (key : Nat) (out : Nat → Nat)
  | zeroing (key : Nat) (out : Nat → Nat) (value : Nat)

structure State where
  table : Table := {}
  phase : Nat → Phase := fun _ => .idle
  drain : Drain := .idle
  /-- Of each key, the sum of the counts that the finished drains returned. -/
  returned : Nat → Nat := fun _ => 0
  /-- Of each key, the handler runs that incremented. -/
  bumped : Nat → Nat := fun _ => 0

/-- One operation, of the handler on a processor or of the drain. -/
inductive Op where
  | lookup (cpu key : Nat)
  | insert (cpu : Nat)
  | lookupAgain (cpu : Nat)
  /-- `other` is the key whose element a pointer that is not current leads to. -/
  | bump (cpu : Nat) (other : Option Nat)
  | start
  | getNextKey (next : Option Nat)
  | read
  | zero (replaces : Bool)

def target (key : Nat) (current : Bool) (other : Option Nat) : Option Nat :=
  if current then some key else other

/-- The pointers after an update that replaced the element of the key. -/
def Phase.replaced (k : Nat) : Phase → Phase
  | .holding key current => .holding key (current && key != k)
  | phase => phase

namespace State

def enter (s : State) (cpu : Nat) (phase : Phase) : State :=
  { s with phase := Function.update s.phase cpu phase }

/-- The end of a run that incremented for `key`. -/
def bumps (s : State) (cpu key : Nat) : State :=
  { s.enter cpu .idle with bumped := Function.update s.bumped key (s.bumped key + 1) }

/-- One operation on the shared map; `none` where the party is not at it. -/
def step (s : State) : Op → Option State
  | .lookup cpu key =>
      match s.phase cpu with
      | .idle => some (s.enter cpu (if key ∈ s.table.keys then .holding key true else .missed key))
      | _ => none
  | .insert cpu =>
      match s.phase cpu with
      | .missed key => some { s.enter cpu (.inserted key) with table := s.table.insert key }
      | _ => none
  | .lookupAgain cpu =>
      match s.phase cpu with
      | .inserted key => some (s.enter cpu (if key ∈ s.table.keys then .holding key true else .idle))
      | _ => none
  | .bump cpu other =>
      match s.phase cpu with
      | .holding key current =>
          match target key current other with
          | none => some (s.bumps cpu key)
          | some k =>
              if k ∈ s.table.keys then some { s.bumps cpu key with table := s.table.bump k }
              else none
      | _ => none
  | .start =>
      match s.drain with
      | .idle => some { s with drain := .walking fun _ => 0 }
      | _ => none
  | .getNextKey none =>
      match s.drain with
      | .walking out =>
          some { s with drain := .idle, returned := fun k => s.returned k + out k }
      | _ => none
  | .getNextKey (some key) =>
      match s.drain with
      | .walking out => if key ∈ s.table.keys then some { s with drain := .found key out } else none
      | _ => none
  | .read =>
      match s.drain with
      | .found key out =>
          let value := s.table.count key
          if value = 0 then some { s with drain := .walking out }
          else some { s with drain := .zeroing key (Function.update out key value) value }
      | _ => none
  | .zero replaces =>
      match s.drain with
      | .zeroing key out _ =>
          some { s with
            table := s.table.set key 0
            phase := if replaces then fun cpu => (s.phase cpu).replaced key else s.phase
            drain := .walking out }
      | _ => none

end State

/-- The steps one by one, with what each needs. -/
inductive Stepped (s : State) : Op → State → Prop where
  | lookup {cpu key : Nat} (hphase : s.phase cpu = .idle) :
      Stepped s (.lookup cpu key)
        (s.enter cpu (if key ∈ s.table.keys then .holding key true else .missed key))
  | insert {cpu key : Nat} (hphase : s.phase cpu = .missed key) :
      Stepped s (.insert cpu) { s.enter cpu (.inserted key) with table := s.table.insert key }
  | lookupAgain {cpu key : Nat} (hphase : s.phase cpu = .inserted key) :
      Stepped s (.lookupAgain cpu)
        (s.enter cpu (if key ∈ s.table.keys then .holding key true else .idle))
  | lost {cpu key : Nat} {current : Bool} {other : Option Nat}
      (hphase : s.phase cpu = .holding key current) (htarget : target key current other = none) :
      Stepped s (.bump cpu other) (s.bumps cpu key)
  | bump {cpu key k : Nat} {current : Bool} {other : Option Nat}
      (hphase : s.phase cpu = .holding key current) (htarget : target key current other = some k)
      (hmem : k ∈ s.table.keys) :
      Stepped s (.bump cpu other) { s.bumps cpu key with table := s.table.bump k }
  | start (hdrain : s.drain = .idle) : Stepped s .start { s with drain := .walking fun _ => 0 }
  | finish {out : Nat → Nat} (hdrain : s.drain = .walking out) :
      Stepped s (.getNextKey none)
        { s with drain := .idle, returned := fun k => s.returned k + out k }
  | next {key : Nat} {out : Nat → Nat} (hdrain : s.drain = .walking out)
      (hmem : key ∈ s.table.keys) :
      Stepped s (.getNextKey (some key)) { s with drain := .found key out }
  | skip {key : Nat} {out : Nat → Nat} (hdrain : s.drain = .found key out)
      (hzero : s.table.count key = 0) : Stepped s .read { s with drain := .walking out }
  | read {key : Nat} {out : Nat → Nat} (hdrain : s.drain = .found key out)
      (hcount : s.table.count key ≠ 0) :
      Stepped s .read
        { s with
          drain := .zeroing key (Function.update out key (s.table.count key)) (s.table.count key) }
  | zero {key value : Nat} {out : Nat → Nat} {replaces : Bool}
      (hdrain : s.drain = .zeroing key out value) :
      Stepped s (.zero replaces)
        { s with
          table := s.table.set key 0
          phase := if replaces then fun cpu => (s.phase cpu).replaced key else s.phase
          drain := .walking out }

theorem step_stepped {s s' : State} {op : Op} (h : s.step op = some s') : Stepped s op s' := by
  unfold State.step at h
  split at h
  · split at h
    · rename_i hphase
      cases h
      exact .lookup hphase
    · cases h
  · split at h
    · rename_i hphase
      cases h
      exact .insert hphase
    · cases h
  · split at h
    · rename_i hphase
      cases h
      exact .lookupAgain hphase
    · cases h
  · split at h
    · rename_i hphase
      split at h
      · rename_i htarget
        cases h
        exact .lost hphase htarget
      · rename_i htarget
        split at h
        · rename_i hmem
          cases h
          exact .bump hphase htarget hmem
        · cases h
    · cases h
  · split at h
    · rename_i hdrain
      cases h
      exact .start hdrain
    · cases h
  · split at h
    · rename_i hdrain
      cases h
      exact .finish hdrain
    · cases h
  · split at h
    · rename_i hdrain
      split at h
      · rename_i hmem
        cases h
        exact .next hdrain hmem
      · cases h
    · cases h
  · split at h
    · rename_i hdrain
      simp only at h
      split at h
      · rename_i hzero
        cases h
        exact .skip hdrain hzero
      · rename_i hcount
        cases h
        exact .read hdrain hcount
    · cases h
  · split at h
    · rename_i hdrain
      cases h
      exact .zero hdrain
    · cases h

/-! ## What a step conserves -/

/-- What the drain under way will return for a key and has taken out of the map. -/
def Drain.settled : Drain → Nat → Nat
  | .idle, _ => 0
  | .walking out, k => out k
  | .found _ out, k => out k
  | .zeroing key out _, k => if k = key then 0 else out k

/-- Every run that incremented is returned once or left in the map once. -/
def Conserved (s : State) : Prop :=
  ∀ k, s.returned k + s.drain.settled k + s.table.left k = s.bumped k

/-- The increment reaches the element of its own key, and its count does not overflow;
a key is found with a count once a drain; the map still holds the count that was read
when it is set to zero. -/
def Quiet (s : State) : Op → Prop
  | .bump cpu other =>
      match s.phase cpu with
      | .holding key current =>
          target key current other = some key ∧ s.table.count key + 1 < 2 ^ 64
      | _ => True
  | .read =>
      match s.drain with
      | .found key out => s.table.count key ≠ 0 → out key = 0
      | _ => True
  | .zero _ =>
      match s.drain with
      | .zeroing key _ value => s.table.count key = value
      | _ => True
  | _ => True

/-- The key that the drain is at is in the map, and its value is on record. -/
def Drain.SoundFor (keys : List Nat) : Drain → Prop
  | .idle => True
  | .walking _ => True
  | .found key _ => key ∈ keys
  | .zeroing key out value => key ∈ keys ∧ out key = value

/-- Keys in use are in the map, which loses none. -/
structure Sound (s : State) : Prop where
  holding : ∀ cpu key current, s.phase cpu = .holding key current → key ∈ s.table.keys
  drain : s.drain.SoundFor s.table.keys

theorem Sound.init : Sound {} where
  holding _ _ _ h := by cases h
  drain := trivial

theorem Sound.enter {s : State} (h : Sound s) (cpu : Nat) (phase : Phase)
    (hphase : ∀ key current, phase = .holding key current → key ∈ s.table.keys) :
    Sound (s.enter cpu phase) where
  holding c key current hc := by
    by_cases hcpu : c = cpu
    · rw [hcpu] at hc
      apply hphase key current
      simpa [State.enter] using hc
    · apply h.holding c key current
      simpa [State.enter, hcpu] using hc
  drain := h.drain

theorem Sound.insert {s : State} (h : Sound s) (k : Nat) :
    Sound { s with table := s.table.insert k } where
  holding c key current hc := Table.mem_insert (h.holding c key current hc)
  drain := by
    have hdrain := h.drain
    change s.drain.SoundFor (s.table.insert k).keys
    cases hd : s.drain with
    | idle => trivial
    | walking out => trivial
    | found key out =>
        rw [hd] at hdrain
        exact Table.mem_insert hdrain
    | zeroing key out value =>
        rw [hd] at hdrain
        exact ⟨Table.mem_insert hdrain.1, hdrain.2⟩

theorem Sound.enter_lookup {s : State} (h : Sound s) (cpu key : Nat) {miss : Phase}
    (hmiss : ∀ k current, miss ≠ .holding k current) :
    Sound (s.enter cpu (if key ∈ s.table.keys then .holding key true else miss)) := by
  apply h.enter
  intro k current hphase
  split at hphase
  · rename_i hmem
    cases hphase
    exact hmem
  · exact absurd hphase (hmiss k current)

theorem Sound.bumps {s : State} (h : Sound s) (cpu key : Nat) : Sound (s.bumps cpu key) := by
  have henter := h.enter cpu .idle (by intro k current hphase; cases hphase)
  exact ⟨henter.holding, henter.drain⟩

/-- An update that replaces an element changes pointers, not their keys. -/
theorem replaced_holding {phase : Phase} {k key : Nat} {current : Bool}
    (h : phase.replaced k = .holding key current) : ∃ before, phase = .holding key before := by
  cases phase with
  | holding key' before =>
      cases h
      exact ⟨before, rfl⟩
  | idle => cases h
  | missed key' => cases h
  | inserted key' => cases h

theorem Sound.step {s s' : State} {op : Op} (h : Sound s) (hstep : s.step op = some s') :
    Sound s' := by
  cases step_stepped hstep with
  | @lookup cpu key _ =>
      apply h.enter_lookup cpu key
      intro k current hphase
      cases hphase
  | @insert cpu key _ =>
      have henter := h.enter cpu (.inserted key) (by intro k current hphase; cases hphase)
      exact henter.insert key
  | @lookupAgain cpu key _ =>
      apply h.enter_lookup cpu key
      intro k current hphase
      cases hphase
  | @lost cpu key _ _ _ _ => exact h.bumps cpu key
  | @bump cpu key k _ _ _ _ _ =>
      have hbumps := h.bumps cpu key
      exact ⟨hbumps.holding, hbumps.drain⟩
  | start _ => exact ⟨h.holding, trivial⟩
  | finish _ => exact ⟨h.holding, trivial⟩
  | next _ hmem => exact ⟨h.holding, hmem⟩
  | skip _ _ => exact ⟨h.holding, trivial⟩
  | @read key out hdrain _ =>
      have hfound := h.drain
      rw [hdrain] at hfound
      exact ⟨h.holding, hfound, by simp⟩
  | @zero key value out replaces hdrain =>
      refine ⟨fun cpu k current hphase => ?_, trivial⟩
      cases replaces with
      | false => exact h.holding cpu k current hphase
      | true =>
          obtain ⟨before, hbefore⟩ := replaced_holding hphase
          exact h.holding cpu k before hbefore

theorem conserved_iff_at {s s' : State} (hs : Conserved s) (key : Nat)
    (hother : ∀ k, k ≠ key →
      s'.returned k + s'.drain.settled k + s'.table.left k =
        s.returned k + s.drain.settled k + s.table.left k ∧ s'.bumped k = s.bumped k) :
    Conserved s' ↔
      s'.returned key + s'.drain.settled key + s'.table.left key = s'.bumped key := by
  constructor
  · intro h
    exact h key
  · intro h k
    by_cases hk : k = key
    · rw [hk]
      exact h
    · have hsame := hother k hk
      rw [hsame.1, hsame.2]
      exact hs k

theorem conserved_of_same {s s' : State} (hs : Conserved s)
    (h : ∀ k, s'.returned k + s'.drain.settled k + s'.table.left k =
        s.returned k + s.drain.settled k + s.table.left k ∧ s'.bumped k = s.bumped k) :
    Conserved s' := by
  intro k
  rw [(h k).1, (h k).2]
  exact hs k

theorem conserved_step_iff {s s' : State} {op : Op} (h : Sound s) (hs : Conserved s)
    (hstep : s.step op = some s') : Conserved s' ↔ Quiet s op := by
  cases step_stepped hstep with
  | @lookup cpu key _ => exact iff_of_true (conserved_of_same hs fun k => ⟨rfl, rfl⟩) trivial
  | @insert cpu key _ =>
      apply iff_of_true
      · apply conserved_of_same hs
        intro k
        exact ⟨congrArg _ (Table.insert_left s.table key k), rfl⟩
      · trivial
  | @lookupAgain cpu key _ =>
      exact iff_of_true (conserved_of_same hs fun k => ⟨rfl, rfl⟩) trivial
  | @lost cpu key current other hphase htarget =>
      apply iff_of_false
      · intro hafter
        have hkey := hafter key
        have hbefore := hs key
        simp only [State.bumps, State.enter, Function.update_self] at hkey
        omega
      · simp [Quiet, hphase, htarget]
  | @bump cpu key k current other hphase htarget hmem =>
      by_cases hk : k = key
      · rw [hk] at htarget hmem ⊢
        have hbefore := hs key
        rw [Table.left_of_mem hmem] at hbefore
        rw [conserved_iff_at hs key]
        · have hafter : (s.table.bump key).left key = (s.table.count key + 1) % 2 ^ 64 :=
            Table.set_left _ hmem
          simp only [State.bumps, State.enter, Function.update_self, hafter, Quiet, hphase,
            htarget, true_and]
          omega
        · intro j hj
          constructor
          · exact congrArg _ (Table.set_left_other s.table _ hj)
          · exact Function.update_of_ne hj _ _
      · apply iff_of_false
        · intro hafter
          have hkey := hafter key
          have hbefore := hs key
          have hleft : (s.table.bump k).left key = s.table.left key :=
            Table.set_left_other s.table _ (Ne.symm hk)
          simp only [State.bumps, State.enter, Function.update_self, hleft] at hkey
          omega
        · simp [Quiet, hphase, htarget, hk]
  | start hdrain =>
      apply iff_of_true
      · apply conserved_of_same hs
        intro k
        simp [hdrain, Drain.settled]
      · trivial
  | @finish out hdrain =>
      apply iff_of_true
      · apply conserved_of_same hs
        intro k
        simp [hdrain, Drain.settled]
      · trivial
  | next hdrain _ =>
      apply iff_of_true
      · apply conserved_of_same hs
        intro k
        simp [hdrain, Drain.settled]
      · trivial
  | skip hdrain hzero =>
      apply iff_of_true
      · apply conserved_of_same hs
        intro k
        simp [hdrain, Drain.settled]
      · simp [Quiet, hdrain, hzero]
  | @read key out hdrain hcount =>
      have hbefore := hs key
      rw [hdrain] at hbefore
      rw [conserved_iff_at hs key]
      · simp only [Drain.settled, Quiet, hdrain, if_true] at hbefore ⊢
        omega
      · intro j hj
        simp [hdrain, Drain.settled, hj]
  | @zero key value out replaces hdrain =>
      have hbefore := hs key
      have hzeroing := h.drain
      rw [hdrain] at hbefore hzeroing
      rw [Table.left_of_mem hzeroing.1] at hbefore
      rw [conserved_iff_at hs key]
      · have hafter : (s.table.set key 0).left key = 0 := Table.set_left 0 hzeroing.1
        have hvalue := hzeroing.2
        simp only [Drain.settled, Quiet, hdrain, if_true, hafter] at hbefore ⊢
        omega
      · intro j hj
        have hleft := Table.set_left_other s.table 0 hj
        simp [hdrain, Drain.settled, hj, hleft]

/-! ## Whole runs -/

/-- The runs are conserved in every state from `s` on, between any two operations. -/
def ConservedRun : State → List Op → Prop
  | s, [] => Conserved s
  | s, op :: ops => Conserved s ∧ ∀ s', s.step op = some s' → ConservedRun s' ops

def QuietRun : State → List Op → Prop
  | _, [] => True
  | s, op :: ops => ∀ s', s.step op = some s' → Quiet s op ∧ QuietRun s' ops

theorem conservedRun_head {s : State} {ops : List Op} (h : ConservedRun s ops) : Conserved s := by
  cases ops with
  | nil => exact h
  | cons op ops => exact h.1

theorem conservedRun_iff {s : State} (ops : List Op) (h : Sound s) (hs : Conserved s) :
    ConservedRun s ops ↔ QuietRun s ops := by
  induction ops generalizing s with
  | nil => exact iff_of_true hs trivial
  | cons op ops ih =>
      constructor
      · intro hrun s' hstep
        have hrest := hrun.2 s' hstep
        have hafter := conservedRun_head hrest
        constructor
        · exact (conserved_step_iff h hs hstep).mp hafter
        · exact (ih (h.step hstep) hafter).mp hrest
      · intro hquiet
        refine ⟨hs, ?_⟩
        intro s' hstep
        have hq := hquiet s' hstep
        have hafter := (conserved_step_iff h hs hstep).mpr hq.1
        exact (ih (h.step hstep) hafter).mpr hq.2

/-- Handlers and drains in any order from an empty map: no run is lost or returned
twice, at any point, exactly when every operation is quiet. -/
theorem faults_conserved_iff (ops : List Op) : ConservedRun {} ops ↔ QuietRun {} ops := by
  apply conservedRun_iff ops Sound.init
  intro k
  rfl

theorem conservedRun_last {s s' : State} {ops : List Op} (h : ConservedRun s ops)
    (hrun : ops.foldlM State.step s = some s') : Conserved s' := by
  induction ops generalizing s with
  | nil =>
      cases hrun
      exact h
  | cons op ops ih =>
      obtain ⟨s₁, hstep, hrest⟩ := Option.bind_eq_some_iff.mp hrun
      exact ih (h.2 s₁ hstep) hrest

/-- A thread faults, a drain reads its count, the thread faults again, and the drain
sets the count to zero. -/
def lossOps : List Op :=
  [.lookup 0 5, .insert 0, .lookupAgain 0, .bump 0 none, .start, .getNextKey (some 5), .read,
    .lookup 0 5, .bump 0 none, .zero false, .getNextKey none]

/-- The second of the two faults is neither returned nor left in the map. -/
theorem fault_lost :
    ¬ ConservedRun {} lossOps ∧
      (lossOps.foldlM State.step {}).map
        (fun s => (s.returned 5 + s.table.left 5, s.bumped 5)) = some (1, 2) := by
  have hcounts : (lossOps.foldlM State.step {}).map
      (fun s => (s.returned 5 + s.drain.settled 5 + s.table.left 5, s.bumped 5)) =
      some (1, 2) := by
    decide +kernel
  refine ⟨?_, by decide +kernel⟩
  intro hrun
  obtain ⟨s, hs, hpair⟩ := Option.map_eq_some_iff.mp hcounts
  have hsum := conservedRun_last hrun hs 5
  simp only [Prod.mk.injEq] at hpair
  omega

end Memflux.Ebpf
