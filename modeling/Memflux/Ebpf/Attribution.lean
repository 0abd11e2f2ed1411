import Memflux.Ebpf.Counters

/-! # Faults and processes

Whole handler runs and whole drains over the fault counters, none during another. A
fault comes with its process and its thread; the handler counts it under the thread,
in a table that never loses a key. Which histories give every drain the faults of each
process since the drain before.
-/

namespace Memflux.Ebpf

/-- A fault of a thread of a process; user threads have positive 32-bit identifiers. -/
structure Fault where
  pid : Nat
  tid : Nat
  tid_pos : 0 < tid
  tid_lt : tid < 2 ^ 32

/-- `(__u32)bpf_get_current_pid_tgid()`: the process is in the upper half. -/
def Fault.key (f : Fault) : Nat := (f.pid * 2 ^ 32 + f.tid) % 2 ^ 32

@[simp] theorem Fault.key_eq (f : Fault) : f.key = f.tid := by
  have hlt := f.tid_lt
  unfold Fault.key
  omega

def onPageFault (t : Table) (key : Nat) : Table :=
  match t.lookup key with
  | some _ => t.bump key
  | none =>
      match (t.insert key).lookup key with
      | some _ => (t.insert key).bump key
      | none => t.insert key

/-- One turn of the loop in `drain_faults`. -/
def visit (acc : (Nat → Nat) × Table) (next : Nat) : (Nat → Nat) × Table :=
  match acc.2.lookup next with
  | some value =>
      if value ≠ 0 then (Function.update acc.1 next value, acc.2.set next 0) else acc
  | none => acc

theorem visit_keys (acc : (Nat → Nat) × Table) (k : Nat) : (visit acc k).2.keys = acc.2.keys := by
  unfold visit
  split
  · split <;> rfl
  · rfl

/-- `drain_faults`, along the keys that `get_next_key` answers from the start key 0. -/
def drainFaults (walk : List Nat) (t : Table) : (Nat → Nat) × Table :=
  walk.foldl visit (fun _ => 0, t)

/-! ## Whole runs as steps -/

/-- Some operations take one state to the other. -/
def Leads (s s' : State) : Prop := ∃ ops : List Op, ops.foldlM State.step s = some s'

theorem Leads.refl (s : State) : Leads s s := ⟨[], rfl⟩

theorem Leads.head {s s₁ s' : State} (op : Op) (hstep : s.step op = some s₁)
    (h : Leads s₁ s') : Leads s s' := by
  obtain ⟨ops, hops⟩ := h
  refine ⟨op :: ops, ?_⟩
  rw [List.foldlM_cons, hstep]
  exact hops

theorem enter_idle {s : State} {cpu : Nat} (hidle : s.phase cpu = .idle) (phase : Phase) :
    Function.update (Function.update s.phase cpu phase) cpu .idle = s.phase := by
  rw [Function.update_idem, ← hidle, Function.update_eq_self]

theorem bump_leads (s : State) {cpu key : Nat} (hidle : s.phase cpu = .idle)
    (hk : key ∈ s.table.keys) :
    Leads (s.enter cpu (.holding key true))
      { s with
        table := s.table.bump key
        bumped := Function.update s.bumped key (s.bumped key + 1) } := by
  have hbump : (s.enter cpu (.holding key true)).step (.bump cpu none) =
      some { s with
        table := s.table.bump key
        bumped := Function.update s.bumped key (s.bumped key + 1) } := by
    simp [State.step, State.enter, State.bumps, target, hk, enter_idle hidle]
  exact Leads.head _ hbump (Leads.refl _)

theorem onPageFault_leads (s : State) {cpu : Nat} (key : Nat) (hidle : s.phase cpu = .idle) :
    ∃ bumped, Leads s { s with table := onPageFault s.table key, bumped } := by
  by_cases hk : key ∈ s.table.keys
  · refine ⟨Function.update s.bumped key (s.bumped key + 1), ?_⟩
    have hlookup : s.step (.lookup cpu key) = some (s.enter cpu (.holding key true)) := by
      simp [State.step, hidle, hk]
    have hsame : onPageFault s.table key = s.table.bump key := by
      simp [onPageFault, Table.lookup, hk]
    rw [hsame]
    exact Leads.head _ hlookup (bump_leads s hidle hk)
  · have hlookup : s.step (.lookup cpu key) = some (s.enter cpu (.missed key)) := by
      simp [State.step, hidle, hk]
    have hinsert : (s.enter cpu (.missed key)).step (.insert cpu) =
        some (State.enter { s with table := s.table.insert key } cpu (.inserted key)) := by
      simp [State.step, State.enter]
    by_cases hnew : key ∈ (s.table.insert key).keys
    · refine ⟨Function.update s.bumped key (s.bumped key + 1), ?_⟩
      have hagain : (State.enter { s with table := s.table.insert key } cpu (.inserted key)).step
          (.lookupAgain cpu) =
            some (State.enter { s with table := s.table.insert key } cpu (.holding key true)) := by
        simp [State.step, State.enter, hnew]
      have hsame : onPageFault s.table key = (s.table.insert key).bump key := by
        simp [onPageFault, Table.lookup, hk, hnew]
      rw [hsame]
      apply Leads.head _ hlookup
      apply Leads.head _ hinsert
      apply Leads.head _ hagain
      exact bump_leads { s with table := s.table.insert key } hidle hnew
    · refine ⟨s.bumped, ?_⟩
      have hagain : (State.enter { s with table := s.table.insert key } cpu (.inserted key)).step
          (.lookupAgain cpu) = some { s with table := s.table.insert key } := by
        simp [State.step, State.enter, hnew, enter_idle hidle]
      have hsame : onPageFault s.table key = s.table.insert key := by
        simp [onPageFault, Table.lookup, hk, hnew]
      rw [hsame]
      apply Leads.head _ hlookup
      apply Leads.head _ hinsert
      exact Leads.head _ hagain (Leads.refl _)

theorem Leads.trans {s₁ s₂ s₃ : State} (h : Leads s₁ s₂) (h' : Leads s₂ s₃) : Leads s₁ s₃ := by
  obtain ⟨ops, hops⟩ := h
  obtain ⟨ops', hops'⟩ := h'
  refine ⟨ops ++ ops', ?_⟩
  rw [List.foldlM_append, hops]
  exact hops'

theorem visit_leads (s : State) {out : Nat → Nat} {key : Nat} (hdrain : s.drain = .walking out)
    (hk : key ∈ s.table.keys) :
    Leads s { s with
      table := (visit (out, s.table) key).2
      drain := .walking (visit (out, s.table) key).1 } := by
  have hnext : s.step (.getNextKey (some key)) = some { s with drain := .found key out } := by
    simp [State.step, hdrain, hk]
  apply Leads.head _ hnext
  by_cases hcount : s.table.count key = 0
  · have hread : State.step { s with drain := .found key out } .read =
        some { s with drain := .walking out } := by
      simp [State.step, hcount]
    have hsame : visit (out, s.table) key = (out, s.table) := by
      simp [visit, Table.lookup, hk, hcount]
    rw [hsame]
    exact Leads.head _ hread (Leads.refl _)
  · have hread : State.step { s with drain := .found key out } .read =
        some { s with
          drain := .zeroing key (Function.update out key (s.table.count key))
            (s.table.count key) } := by
      simp [State.step, hcount]
    have hsame : visit (out, s.table) key =
        (Function.update out key (s.table.count key), s.table.set key 0) := by
      simp [visit, Table.lookup, hk, hcount]
    rw [hsame]
    apply Leads.head _ hread
    exact Leads.head (.zero false) rfl (Leads.refl _)

theorem visits_lead (walk : List Nat) (s : State) {out : Nat → Nat}
    (hdrain : s.drain = .walking out) (hwalk : ∀ k ∈ walk, k ∈ s.table.keys) :
    Leads s { s with
      table := (walk.foldl visit (out, s.table)).2
      drain := .walking (walk.foldl visit (out, s.table)).1 } := by
  induction walk generalizing s out with
  | nil =>
      have hsame : s = { s with drain := .walking out } := by
        rw [← hdrain]
      exact hsame ▸ Leads.refl _
  | cons k walk ih =>
      have hk := hwalk k List.mem_cons_self
      apply (visit_leads s hdrain hk).trans
      apply ih { s with
        table := (visit (out, s.table) k).2
        drain := .walking (visit (out, s.table) k).1 } rfl
      intro j hj
      have hkeys : (visit (out, s.table) k).2.keys = s.table.keys := visit_keys _ k
      change j ∈ (visit (out, s.table) k).2.keys
      rw [hkeys]
      exact hwalk j (List.mem_cons_of_mem k hj)

theorem drainFaults_leads (walk : List Nat) (s : State) (hdrain : s.drain = .idle)
    (hwalk : ∀ k ∈ walk, k ∈ s.table.keys) :
    Leads s { s with
      table := (drainFaults walk s.table).2
      returned := fun k => s.returned k + (drainFaults walk s.table).1 k } := by
  have hstart : s.step .start = some { s with drain := .walking fun _ => 0 } := by
    simp [State.step, hdrain]
  apply Leads.head _ hstart
  apply (visits_lead walk { s with drain := .walking fun _ => 0 } rfl hwalk).trans
  refine Leads.head (.getNextKey none) rfl ?_
  rw [← hdrain]
  exact Leads.refl _

/-! ## Histories -/

inductive Event where
  | fault (f : Fault)
  | drain (walk : List Nat)

def Event.apply (t : Table) : Event → Table
  | .fault f => onPageFault t f.key
  | .drain walk => (drainFaults walk t).2

def tableAfter (h : List Event) : Table := h.foldl Event.apply {}

def Event.fault? : Event → Option Fault
  | .fault f => some f
  | .drain _ => none

def threads (h : List Event) : List Nat := (h.filterMap Event.fault?).map Fault.tid

def since (h : List Event) : List Fault :=
  h.foldl (fun w e => match e with | .fault f => w ++ [f] | .drain _ => []) []

def faultsOf (P : Nat) (w : List Fault) : Nat := w.countP fun f => f.pid = P

/-- From a start key that is not in the map, iteration comes to every key. -/
def Walks (h : List Event) : Prop :=
  ∀ pre walk post, h = pre ++ .drain walk :: post → 0 ∉ (tableAfter pre).keys →
    ∀ k, k ∈ walk ↔ k ∈ (tableAfter pre).keys

/-- Every drain returns the faults of each process since the drain before, and so the
thrash guard's comparison is about the process. -/
structure Attributed (h : List Event) : Prop where
  returned : ∀ pre walk post, h = pre ++ .drain walk :: post → ∀ P,
    (drainFaults walk (tableAfter pre)).1 P = faultsOf P (since pre)
  compared : ∀ pre walk post, h = pre ++ .drain walk :: post → ∀ faults : List (Nat × Nat),
    (∀ P n, (P, n) ∈ faults ↔ n ≠ 0 ∧ (drainFaults walk (tableAfter pre)).1 P = n) →
    ∀ P, (∃ n, 20000 < n ∧ (P, n) ∈ faults) ↔ 20000 < faultsOf P (since pre)

/-- When the first fault of the thread came, the table had room. -/
def Recorded (ids : List Nat) (k : Nat) : Prop :=
  (ids.takeWhile (· ≠ k)).toFinset.card < maxEntries

/-- The faults before a drain: their threads have entries, and as identifiers their
threads are their processes. -/
structure OwnThreads (pre : List Event) : Prop where
  recorded : ∀ f ∈ since pre, Recorded (threads pre) f.tid
  same : ((since pre).map Fault.tid).Perm ((since pre).map Fault.pid)
  fits : ∀ k, ((since pre).map Fault.tid).count k < 2 ^ 64

/-! ## One event -/

theorem since_fault (h : List Event) (f : Fault) : since (h ++ [.fault f]) = since h ++ [f] := by
  simp [since]

theorem since_drain (h : List Event) (walk : List Nat) : since (h ++ [.drain walk]) = [] := by
  simp [since]

theorem threads_fault (h : List Event) (f : Fault) :
    threads (h ++ [.fault f]) = threads h ++ [f.tid] := by
  simp [threads, Event.fault?]

theorem threads_drain (h : List Event) (walk : List Nat) :
    threads (h ++ [.drain walk]) = threads h := by
  simp [threads, Event.fault?]

theorem tableAfter_snoc (h : List Event) (e : Event) :
    tableAfter (h ++ [e]) = e.apply (tableAfter h) := by
  simp [tableAfter]

theorem mem_threads_of_since {h : List Event} {f : Fault} (hf : f ∈ since h) :
    f.tid ∈ threads h := by
  induction h using List.reverseRecOn with
  | nil => cases hf
  | append_singleton h e ih =>
      cases e with
      | fault g =>
          rw [since_fault] at hf
          rw [threads_fault]
          cases List.mem_append.mp hf with
          | inl hold => exact List.mem_append_left _ (ih hold)
          | inr hnew => simp [List.mem_singleton.mp hnew]
      | drain walk =>
          rw [since_drain] at hf
          cases hf

theorem recorded_snoc {ids : List Nat} {k : Nat} (hk : k ∈ ids) (i : Nat) :
    Recorded (ids ++ [i]) k ↔ Recorded ids k := by
  have hstop : ¬ ∀ j ∈ ids, decide (j ≠ k) = true := by
    intro hall
    simpa using hall k hk
  unfold Recorded
  rw [List.takeWhile_append, if_neg]
  intro hlen
  apply hstop
  have hall := List.takeWhile_eq_self_iff.mp
    ((List.takeWhile_prefix (fun j => decide (j ≠ k))).eq_of_length hlen)
  exact hall

theorem recorded_of_card {ids : List Nat} (h : ids.toFinset.card < maxEntries) (k : Nat) :
    Recorded ids k := by
  apply lt_of_le_of_lt _ h
  apply Finset.card_le_card
  intro j hj
  rw [List.mem_toFinset] at hj ⊢
  exact (List.takeWhile_prefix _).subset hj

theorem recorded_new {ids : List Nat} {k : Nat} (hk : k ∉ ids) :
    Recorded (ids ++ [k]) k ↔ ids.toFinset.card < maxEntries := by
  have hself : (ids ++ [k]).takeWhile (· ≠ k) = ids := by
    rw [List.takeWhile_append_of_pos]
    · simp
    · intro j hj
      have hne : j ≠ k := fun heq => hk (heq ▸ hj)
      simpa using hne
  unfold Recorded
  rw [hself]

theorem onPageFault_known {t : Table} {k : Nat} (hk : k ∈ t.keys) :
    onPageFault t k = t.bump k := by
  simp [onPageFault, Table.lookup, hk]

theorem onPageFault_full {t : Table} {k : Nat} (hk : k ∉ t.keys)
    (hfull : maxEntries ≤ t.keys.length) : onPageFault t k = t := by
  simp [onPageFault, Table.lookup, Table.insert, hk, hfull]

theorem onPageFault_new {t : Table} {k : Nat} (hk : k ∉ t.keys)
    (hroom : t.keys.length < maxEntries) : onPageFault t k = (t.insert k).bump k := by
  have hins : k ∈ (t.insert k).keys := by
    simp [Table.insert_new hk hroom]
  simp [onPageFault, Table.lookup, hk, hins]

/-! ## The table after a history -/

/-- The keys are the recorded threads, and each count is that of its thread. -/
structure Counts (h : List Event) (t : Table) : Prop where
  mem : ∀ k, k ∈ t.keys ↔ k ∈ threads h ∧ Recorded (threads h) k
  size : t.keys.length = min maxEntries (threads h).toFinset.card
  count : ∀ k ∈ t.keys, t.count k = ((since h).map Fault.tid).count k % 2 ^ 64

theorem Counts.init : Counts [] (tableAfter []) where
  mem k := by simp [tableAfter, threads]
  size := by simp [tableAfter, threads]
  count k hk := by cases hk

theorem count_since_fault (h : List Event) (f : Fault) (k : Nat) :
    ((since (h ++ [.fault f])).map Fault.tid).count k =
      ((since h).map Fault.tid).count k + if f.tid = k then 1 else 0 := by
  rw [since_fault, List.map_append, List.count_append, List.map_singleton,
    List.count_singleton]
  simp

theorem Counts.known {h : List Event} {t : Table} (ht : Counts h t) {f : Fault}
    (hf : f.tid ∈ t.keys) : Counts (h ++ [.fault f]) (t.bump f.tid) := by
  have hseen := (ht.mem f.tid).mp hf
  have hset : (threads h ++ [f.tid]).toFinset = (threads h).toFinset := by
    simp [hseen.1]
  constructor
  · intro k
    rw [threads_fault, Table.bump_keys, ht.mem k]
    by_cases hk : k ∈ threads h
    · simp [recorded_snoc hk, hk]
    · have hne : k ≠ f.tid := fun heq => hk (heq ▸ hseen.1)
      simp [hk, hne]
  · rw [threads_fault, hset]
    exact ht.size
  · intro k hk
    rw [count_since_fault]
    by_cases hkf : k = f.tid
    · rw [hkf, if_pos rfl]
      unfold Table.bump
      rw [Table.set_count, ht.count f.tid hf]
      omega
    · unfold Table.bump
      rw [Table.set_count_other _ _ hkf, if_neg (Ne.symm hkf)]
      exact ht.count k hk

theorem Counts.full {h : List Event} {t : Table} (ht : Counts h t) {f : Fault}
    (hf : f.tid ∉ t.keys) (hfull : maxEntries ≤ t.keys.length) :
    Counts (h ++ [.fault f]) t := by
  have hcard : maxEntries ≤ (threads h).toFinset.card := by
    have hsize := ht.size
    omega
  constructor
  · intro k
    rw [threads_fault, ht.mem k]
    by_cases hk : k ∈ threads h
    · simp [recorded_snoc hk, hk]
    · by_cases hkf : k = f.tid
      · rw [hkf] at hk ⊢
        have hlate : ¬ Recorded (threads h ++ [f.tid]) f.tid := by
          rw [recorded_new hk]
          omega
        simp [hk, hlate]
      · simp [hk, hkf]
  · rw [threads_fault]
    have hmore : (threads h).toFinset.card ≤ (threads h ++ [f.tid]).toFinset.card := by
      apply Finset.card_le_card
      simp
    have hsize := ht.size
    omega
  · intro k hk
    have hkf : f.tid ≠ k := fun heq => hf (heq ▸ hk)
    rw [count_since_fault, if_neg hkf]
    exact ht.count k hk

theorem Counts.new {h : List Event} {t : Table} (ht : Counts h t) {f : Fault}
    (hf : f.tid ∉ t.keys) (hroom : t.keys.length < maxEntries) :
    Counts (h ++ [.fault f]) ((t.insert f.tid).bump f.tid) := by
  have hcard : (threads h).toFinset.card < maxEntries := by
    have hsize := ht.size
    omega
  have hnew : f.tid ∉ threads h := by
    intro hseen
    exact hf ((ht.mem f.tid).mpr ⟨hseen, recorded_of_card hcard f.tid⟩)
  have hkeys : ((t.insert f.tid).bump f.tid).keys = t.keys ++ [f.tid] := by
    simp [Table.insert_new hf hroom]
  constructor
  · intro k
    rw [threads_fault, hkeys, List.mem_append, List.mem_singleton, List.mem_append,
      List.mem_singleton, ht.mem k]
    by_cases hk : k ∈ threads h
    · simp [recorded_snoc hk, hk, recorded_of_card hcard k]
    · by_cases hkf : k = f.tid
      · have hrec : Recorded (threads h ++ [f.tid]) f.tid := (recorded_new hnew).mpr hcard
        simp [hkf, hrec]
      · simp [hk, hkf]
  · have hgrow : (threads h ++ [f.tid]).toFinset.card = (threads h).toFinset.card + 1 := by
      rw [List.toFinset_append, Finset.union_comm]
      simp [hnew]
    have hsize := ht.size
    rw [threads_fault, hgrow, hkeys, List.length_append, List.length_singleton]
    omega
  · intro k hk
    rw [count_since_fault]
    by_cases hkf : k = f.tid
    · have hnone : ((since h).map Fault.tid).count f.tid = 0 := by
        apply List.count_eq_zero.mpr
        intro hmem
        obtain ⟨g, hg, heq⟩ := List.mem_map.mp hmem
        exact hnew (heq ▸ mem_threads_of_since hg)
      rw [hkf, if_pos rfl, hnone]
      unfold Table.bump
      rw [Table.set_count]
      simp [Table.insert_new hf hroom]
    · have hold : k ∈ t.keys := by
        rw [hkeys] at hk
        simpa [hkf] using hk
      unfold Table.bump
      rw [Table.set_count_other _ _ hkf, if_neg (Ne.symm hkf)]
      have hsame : (t.insert f.tid).count k = t.count k := by
        simp [Table.insert_new hf hroom, hkf]
      rw [hsame]
      exact ht.count k hold

theorem Counts.fault {h : List Event} {t : Table} (ht : Counts h t) (f : Fault) :
    Counts (h ++ [.fault f]) (onPageFault t f.key) := by
  rw [Fault.key_eq]
  by_cases hf : f.tid ∈ t.keys
  · rw [onPageFault_known hf]
    exact ht.known hf
  · by_cases hfull : maxEntries ≤ t.keys.length
    · rw [onPageFault_full hf hfull]
      exact ht.full hf hfull
    · rw [onPageFault_new hf (by omega)]
      exact ht.new hf (by omega)

/-! ## A drain -/

theorem visit_of_not_mem {acc : (Nat → Nat) × Table} {k : Nat} (hk : k ∉ acc.2.keys) :
    visit acc k = acc := by
  simp [visit, Table.lookup, hk]

theorem visit_of_mem {acc : (Nat → Nat) × Table} {k : Nat} (hk : k ∈ acc.2.keys) :
    visit acc k =
      if acc.2.count k ≠ 0 then (Function.update acc.1 k (acc.2.count k), acc.2.set k 0)
      else acc := by
  simp [visit, Table.lookup, hk]

theorem visit_left (acc : (Nat → Nat) × Table) (k j : Nat) :
    (visit acc k).2.left j = if j = k then 0 else acc.2.left j := by
  by_cases hk : k ∈ acc.2.keys
  · rw [visit_of_mem hk]
    by_cases hcount : acc.2.count k = 0
    · rw [if_neg (by simpa using hcount)]
      split
      · rename_i hj
        rw [hj, Table.left_of_mem hk, hcount]
      · rfl
    · rw [if_pos hcount]
      split
      · rename_i hj
        rw [hj, Table.set_left 0 hk]
      · rename_i hj
        exact Table.set_left_other acc.2 0 hj
  · rw [visit_of_not_mem hk]
    split
    · rename_i hj
      rw [hj, Table.left_of_not_mem hk]
    · rfl

theorem visit_out (acc : (Nat → Nat) × Table) (k j : Nat) :
    (visit acc k).1 j = if j = k ∧ acc.2.left j ≠ 0 then acc.2.left j else acc.1 j := by
  by_cases hk : k ∈ acc.2.keys
  · have hleft := Table.left_of_mem hk
    rw [visit_of_mem hk]
    by_cases hcount : acc.2.count k = 0
    · rw [if_neg (by simpa using hcount), if_neg]
      rintro ⟨hj, hne⟩
      rw [hj, hleft] at hne
      exact hne hcount
    · rw [if_pos hcount]
      by_cases hj : j = k
      · rw [hj, hleft, if_pos ⟨rfl, hcount⟩]
        exact Function.update_self k _ _
      · rw [if_neg fun h => hj h.1]
        exact Function.update_of_ne hj _ _
  · have hleft := Table.left_of_not_mem hk
    rw [visit_of_not_mem hk, if_neg]
    rintro ⟨hj, hne⟩
    rw [hj] at hne
    exact hne hleft

theorem foldl_visit (walk : List Nat) (acc : (Nat → Nat) × Table) :
    (walk.foldl visit acc).2.keys = acc.2.keys ∧
      (∀ j, (walk.foldl visit acc).2.left j = if j ∈ walk then 0 else acc.2.left j) ∧
      ∀ j, (walk.foldl visit acc).1 j =
        if j ∈ walk ∧ acc.2.left j ≠ 0 then acc.2.left j else acc.1 j := by
  induction walk generalizing acc with
  | nil => simp
  | cons k walk ih =>
      have hrest := ih (visit acc k)
      refine ⟨hrest.1.trans (visit_keys acc k), fun j => ?_, fun j => ?_⟩
      · rw [List.foldl_cons, hrest.2.1 j, visit_left]
        by_cases hj : j ∈ walk
        · simp [hj]
        · by_cases hjk : j = k <;> simp [hj, hjk]
      · rw [List.foldl_cons, hrest.2.2 j, visit_left, visit_out]
        by_cases hjk : j = k
        · simp [hjk]
        · simp [hjk]

theorem Counts.drain {h : List Event} {t : Table} (ht : Counts h t) {walk : List Nat}
    (hwalk : ∀ k, k ∈ walk ↔ k ∈ t.keys) :
    Counts (h ++ [.drain walk]) (drainFaults walk t).2 := by
  have hvisits := foldl_visit walk (fun _ => 0, t)
  have hkeys : (drainFaults walk t).2.keys = t.keys := hvisits.1
  constructor
  · intro k
    rw [hkeys, threads_drain]
    exact ht.mem k
  · rw [hkeys, threads_drain]
    exact ht.size
  · intro k hk
    have hleft := hvisits.2.1 k
    rw [hkeys] at hk
    rw [if_pos ((hwalk k).mpr hk), Table.left_of_mem (by rwa [hvisits.1])] at hleft
    rw [since_drain]
    exact hleft

theorem Counts.zero_not_mem {h : List Event} {t : Table} (ht : Counts h t) : 0 ∉ t.keys := by
  intro hzero
  have hseen := ((ht.mem 0).mp hzero).1
  unfold threads at hseen
  obtain ⟨f, _, hf⟩ := List.mem_map.mp hseen
  have hpos := f.tid_pos
  omega

theorem Walks.init {h : List Event} {e : Event} (hwalks : Walks (h ++ [e])) : Walks h := by
  intro pre walk post heq
  exact hwalks pre walk (post ++ [e]) (by simp [heq])

theorem counts_tableAfter {h : List Event} (hwalks : Walks h) : Counts h (tableAfter h) := by
  induction h using List.reverseRecOn with
  | nil => exact Counts.init
  | append_singleton h e ih =>
      have hbefore := ih hwalks.init
      rw [tableAfter_snoc]
      cases e with
      | fault f => exact hbefore.fault f
      | drain walk => exact hbefore.drain (hwalks h walk [] rfl hbefore.zero_not_mem)

/-! ## What a drain returns -/

theorem count_pids (w : List Fault) (P : Nat) : (w.map Fault.pid).count P = faultsOf P w := by
  unfold faultsOf
  rw [List.count_eq_countP, List.countP_map]
  apply List.countP_congr
  intro f _
  simp

section

variable {pre : List Event} {t : Table} {walk : List Nat} (ht : Counts pre t)
  (hwalk : ∀ k, k ∈ walk ↔ k ∈ t.keys)

include ht hwalk

theorem drained_eq (P : Nat) :
    (drainFaults walk t).1 P =
      if P ∈ t.keys then ((since pre).map Fault.tid).count P % 2 ^ 64 else 0 := by
  have hout := (foldl_visit walk (fun _ => 0, t)).2.2 P
  change (drainFaults walk t).1 P = _ at hout
  rw [hout]
  by_cases hP : P ∈ t.keys
  · have hleft := Table.left_of_mem hP
    rw [if_pos hP, ← ht.count P hP, ← hleft]
    by_cases hzero : t.left P = 0
    · rw [if_neg (by simp [hzero]), hzero]
    · rw [if_pos ⟨(hwalk P).mpr hP, hzero⟩]
  · rw [if_neg hP, if_neg]
    intro hboth
    exact hboth.2 (Table.left_of_not_mem hP)

theorem drained_le (P : Nat) :
    (drainFaults walk t).1 P ≤ ((since pre).map Fault.tid).count P := by
  rw [drained_eq ht hwalk P]
  split
  · exact Nat.mod_le _ _
  · exact Nat.zero_le _

/-- One drain returns what each process faulted exactly when threads stand for
processes. -/
theorem drained_iff :
    (∀ P, (drainFaults walk t).1 P = faultsOf P (since pre)) ↔ OwnThreads pre := by
  constructor
  · intro hall
    have hperm : ((since pre).map Fault.pid).Perm ((since pre).map Fault.tid) := by
      apply List.Subperm.perm_of_length_le
      · apply List.subperm_ext_iff.mpr
        intro P _
        rw [count_pids, ← hall P]
        exact drained_le ht hwalk P
      · simp
    have hexact : ∀ P, (drainFaults walk t).1 P = ((since pre).map Fault.tid).count P := by
      intro P
      rw [hall P, ← count_pids]
      exact hperm.count_eq P
    have hkept : ∀ P, 0 < ((since pre).map Fault.tid).count P → P ∈ t.keys := by
      intro P hpos
      by_contra hP
      have heq := hexact P
      rw [drained_eq ht hwalk P, if_neg hP] at heq
      omega
    constructor
    · intro f hf
      have hmem : f.tid ∈ (since pre).map Fault.tid := List.mem_map_of_mem hf
      exact ((ht.mem f.tid).mp (hkept f.tid (List.count_pos_iff.mpr hmem))).2
    · exact hperm.symm
    · intro P
      by_cases hpos : 0 < ((since pre).map Fault.tid).count P
      · have heq := hexact P
        rw [drained_eq ht hwalk P, if_pos (hkept P hpos)] at heq
        rw [← heq]
        exact Nat.mod_lt _ (by omega)
      · omega
  · intro hown P
    rw [drained_eq ht hwalk P, ← count_pids, ← hown.same.count_eq P]
    split
    · exact Nat.mod_eq_of_lt (hown.fits P)
    · rename_i hP
      symm
      apply List.count_eq_zero.mpr
      intro hmem
      obtain ⟨f, hf, heq⟩ := List.mem_map.mp hmem
      apply hP
      rw [← heq]
      exact (ht.mem f.tid).mpr ⟨mem_threads_of_since hf, hown.recorded f hf⟩

end

/-- The comparison of the thrash guard is about the count that was returned. -/
theorem compared_iff {faults : List (Nat × Nat)} {out : Nat → Nat}
    (hfaults : ∀ P n, (P, n) ∈ faults ↔ n ≠ 0 ∧ out P = n) (P : Nat) :
    (∃ n, 20000 < n ∧ (P, n) ∈ faults) ↔ 20000 < out P := by
  constructor
  · intro hseen
    obtain ⟨n, hn, hmem⟩ := hseen
    rw [((hfaults P n).mp hmem).2]
    exact hn
  · intro hlarge
    exact ⟨out P, hlarge, (hfaults P (out P)).mpr ⟨by omega, rfl⟩⟩

/-- Of every history: each drain returns the faults of each process since the drain
before exactly when, before each drain, threads stand for processes. -/
theorem attributed_iff (h : List Event) (hwalks : Walks h) :
    Attributed h ↔ ∀ pre walk post, h = pre ++ .drain walk :: post → OwnThreads pre := by
  have hdrain : ∀ pre walk post, h = pre ++ .drain walk :: post →
      ((∀ P, (drainFaults walk (tableAfter pre)).1 P = faultsOf P (since pre)) ↔
        OwnThreads pre) := by
    intro pre walk post heq
    have hpre : Walks pre := by
      intro pre' walk' post' heq'
      exact hwalks pre' walk' (post' ++ .drain walk :: post) (by simp [heq, heq'])
    have hcounts := counts_tableAfter hpre
    exact drained_iff hcounts (hwalks pre walk post heq hcounts.zero_not_mem)
  constructor
  · intro hright pre walk post heq
    exact (hdrain pre walk post heq).mp (hright.returned pre walk post heq)
  · intro hown
    constructor
    · intro pre walk post heq
      exact (hdrain pre walk post heq).mpr (hown pre walk post heq)
    · intro pre walk post heq faults hfaults P
      rw [compared_iff hfaults P, (hdrain pre walk post heq).mpr (hown pre walk post heq) P]

/-- The main threads of processes 7 and 9 fault, before a drain and after it. -/
def twoProcesses : List Event :=
  let seven : Fault := ⟨7, 7, by decide, by decide⟩
  let nine : Fault := ⟨9, 9, by decide, by decide⟩
  [.fault seven, .fault nine, .fault seven, .drain [9, 7], .fault nine, .drain [7, 9]]

theorem twoProcesses_split {pre post : List Event} {walk : List Nat}
    (h : twoProcesses = pre ++ .drain walk :: post) :
    (pre = twoProcesses.take 3 ∧ walk = [9, 7]) ∨ (pre = twoProcesses.take 5 ∧ walk = [7, 9]) := by
  have hpre : pre = twoProcesses.take pre.length := by
    rw [h, List.take_left]
  have hget : twoProcesses[pre.length]? = some (.drain walk) := by
    rw [h, List.getElem?_append_right (Nat.le_refl _), Nat.sub_self]
    rfl
  have hlen : pre.length < 6 := (List.getElem?_eq_some_iff.mp hget).1
  generalize pre.length = n at hpre hget hlen
  interval_cases n
  all_goals cases hget
  · exact .inl ⟨hpre, rfl⟩
  · exact .inr ⟨hpre, rfl⟩

theorem twoProcesses_walks : Walks twoProcesses := by
  intro pre walk post heq _ k
  have hfirst : (tableAfter (twoProcesses.take 3)).keys = [7, 9] := by decide
  have hsecond : (tableAfter (twoProcesses.take 5)).keys = [7, 9] := by decide
  rcases twoProcesses_split heq with ⟨rfl, rfl⟩ | ⟨rfl, rfl⟩
  · rw [hfirst]
    simp [or_comm]
  · rw [hsecond]

/-- The faults of each process come back with the next drain. -/
theorem attributed_two : Attributed twoProcesses ∧
    (drainFaults [9, 7] (tableAfter (twoProcesses.take 3))).1 7 = 2 ∧
      (drainFaults [9, 7] (tableAfter (twoProcesses.take 3))).1 9 = 1 := by
  have hright : Attributed twoProcesses := by
    refine (attributed_iff twoProcesses twoProcesses_walks).mpr fun pre walk post heq => ?_
    have hfew : (threads pre).length < maxEntries := by
      rcases twoProcesses_split heq with ⟨rfl, -⟩ | ⟨rfl, -⟩ <;> decide
    refine ⟨fun f _ => recorded_of_card ?_ f.tid, ?_, fun k => ?_⟩
    · exact lt_of_le_of_lt (List.toFinset_card_le _) hfew
    · rcases twoProcesses_split heq with ⟨rfl, -⟩ | ⟨rfl, -⟩ <;> exact List.Perm.refl _
    · apply lt_of_le_of_lt List.count_le_length
      rcases twoProcesses_split heq with ⟨rfl, -⟩ | ⟨rfl, -⟩ <;> decide
  have hfirst := hright.returned (twoProcesses.take 3) [9, 7] (twoProcesses.drop 4) rfl
  exact ⟨hright, (hfirst 7).trans (by decide), (hfirst 9).trans (by decide)⟩

def oneFault (f : Fault) : List Event := [.fault f, .drain [f.tid]]

theorem oneFault_split {f : Fault} {pre post : List Event} {walk : List Nat}
    (h : oneFault f = pre ++ .drain walk :: post) : pre = [.fault f] ∧ walk = [f.tid] := by
  unfold oneFault at h
  cases pre with
  | nil => simp at h
  | cons a pre =>
      cases pre with
      | nil =>
          simp only [List.cons_append, List.nil_append, List.cons.injEq, Event.drain.injEq] at h
          exact ⟨by rw [h.1], h.2.1.symm⟩
      | cons b pre => simp at h

theorem oneFault_walks (f : Fault) : Walks (oneFault f) := by
  intro pre walk post heq _ k
  obtain ⟨hpre, hwalk⟩ := oneFault_split heq
  have hkeys : (tableAfter [.fault f]).keys = [f.tid] := by
    have hroom : ({} : Table).keys.length < maxEntries := Nat.zero_lt_succ _
    simp [tableAfter, Event.apply, onPageFault_new List.not_mem_nil hroom,
      Table.insert_new List.not_mem_nil hroom]
  rw [hpre, hwalk, hkeys]

/-- Thread 11 of process 10. -/
def workerFault : Fault := ⟨10, 11, by decide, by decide⟩

/-- The fault of a second thread is returned for a process that it is not of. -/
theorem worker_misattributed :
    Walks (oneFault workerFault) ∧ ¬ Attributed (oneFault workerFault) := by
  refine ⟨oneFault_walks workerFault, ?_⟩
  intro hright
  have hcount := hright.returned [.fault workerFault] [11] [] rfl 10
  have hout := (foldl_visit [11] (fun _ => 0, tableAfter [.fault workerFault])).2.2 10
  rw [if_neg (by simp)] at hout
  change (drainFaults [11] (tableAfter [.fault workerFault])).1 10 = 0 at hout
  rw [hout] at hcount
  have hone : faultsOf 10 (since [.fault workerFault]) = 1 := by decide
  omega

end Memflux.Ebpf
