import Memflux.Lib.Handles

/-! # Loading the tracer

`load`, `unload` and `drain_faults` with the calls they make to libbpf. `load` leaves the
pointers to the program and to the map as they are when it fails and closes the object
that they point into, and `drain_faults` asks only whether there is a map.
-/

namespace Memflux.Ebpf

open Handles

/-- What libbpf hands out. Programs and maps live in their object. -/
inductive Handle where
  | object (o : Nat)
  | link (l : Nat)
  deriving DecidableEq

/-- `BpfState`; the pointers to the program and to the map are those of an object. -/
structure BpfState where
  obj : Option Nat := none
  prog : Option Nat := none
  map : Option Nat := none
  link : Option Nat := none
  deriving DecidableEq

/-- What libbpf answers to the calls of `load`. -/
structure Loading where
  opened : Option Nat
  loads : Bool
  program : Bool
  map : Bool
  link : Option Nat
  deriving DecidableEq

def loaded (g : BpfState) : Bool := g.obj.isSome

def load (g : BpfState) (a : Loading) : Bool × BpfState × List (Use Handle) :=
  if g.obj.isSome then (true, g, [])
  else
    match a.opened with
    | none => (false, g, [])
    | some o =>
        if a.loads = false then (false, g, [.opened (.object o), .used (.object o), .closed (.object o)])
        else
          let found := { g with
            prog := if a.program then some o else none
            map := if a.map then some o else none }
          if a.program = false ∨ a.map = false then
            (false, found, [.opened (.object o), .used (.object o), .closed (.object o)])
          else
            match a.link with
            | none =>
                (false, { found with link := none },
                  [.opened (.object o), .used (.object o), .closed (.object o)])
            | some l =>
                (true, { found with obj := some o, link := some l },
                  [.opened (.object o), .used (.object o), .opened (.link l)])

def unload (g : BpfState) : BpfState × List (Use Handle) :=
  ({ g with obj := none, link := none },
    (g.link.toList.map fun l => .closed (.link l)) ++ g.obj.toList.map fun o => .closed (.object o))

/-- The operations of `drain_faults` on the map. -/
def drainCalls (g : BpfState) : List (Use Handle) := g.map.toList.map fun o => .used (.object o)

inductive LoaderOp where
  | load (a : Loading)
  | unload
  | drain
  deriving DecidableEq

def LoaderOp.run (g : BpfState) : LoaderOp → BpfState × List (Use Handle)
  | .load a => (Ebpf.load g a).2
  | .unload => Ebpf.unload g
  | .drain => (g, drainCalls g)

def runOps (g : BpfState) : List LoaderOp → BpfState × List (Use Handle)
  | [] => (g, [])
  | op :: ops =>
      ((runOps (op.run g).1 ops).1, (op.run g).2 ++ (runOps (op.run g).1 ops).2)

theorem runOps_single (g : BpfState) (op : LoaderOp) : runOps g [op] = op.run g := by
  rw [runOps, runOps, List.append_nil]

theorem runOps_append (g : BpfState) (ops ops' : List LoaderOp) :
    runOps g (ops ++ ops') =
      ((runOps (runOps g ops).1 ops').1, (runOps g ops).2 ++ (runOps (runOps g ops).1 ops').2) := by
  induction ops generalizing g with
  | nil => rfl
  | cons op ops ih =>
      rw [List.cons_append, runOps, ih, runOps]
      dsimp only
      rw [List.append_assoc]

/-! ## What is open -/

def BpfState.handles (g : BpfState) : List Handle :=
  (g.link.toList.map Handle.link) ++ g.obj.toList.map Handle.object

/-- While an object is loaded, its program is attached, and program and map are its own. -/
structure BpfState.Whole (g : BpfState) : Prop where
  attached : g.link.isSome = g.obj.isSome
  own : ∀ o, g.obj = some o → g.prog = some o ∧ g.map = some o

theorem whole_empty : BpfState.Whole {} := ⟨rfl, nofun⟩

theorem link_of_none {g : BpfState} (h : g.Whole) (hobj : g.obj = none) : g.link = none := by
  have hattached := h.attached
  rw [hobj] at hattached
  simpa using hattached

theorem handles_of_none {g : BpfState} (h : g.Whole) (hobj : g.obj = none) : g.handles = [] := by
  rw [BpfState.handles, link_of_none h hobj, hobj]
  rfl

theorem openAfter_failed (o : Nat) :
    openAfter [] [.opened (Handle.object o), .used (.object o), .closed (.object o)] = some [] := by
  simp

/-- `load` uses only what it opened, leaves nothing open when it fails, and returns whether
an object is loaded now. -/
theorem load_legal {g : BpfState} (h : g.Whole) (a : Loading) :
    (load g a).2.1.Whole ∧ openAfter g.handles (load g a).2.2 = some (load g a).2.1.handles ∧
      (load g a).1 = loaded (load g a).2.1 := by
  unfold load
  split
  · rename_i hloaded
    exact ⟨h, rfl, hloaded.symm⟩
  · rename_i hnot
    have hobj : g.obj = none := by simpa using hnot
    have hlink := link_of_none h hobj
    have hfailed : ∀ g' : BpfState, g'.obj = none → g'.link = none →
        ∀ o, g'.Whole ∧ openAfter g.handles [.opened (Handle.object o), .used (.object o),
          .closed (.object o)] = some g'.handles ∧ false = loaded g' := by
      intro g' hobj' hlink' o
      have hwhole : g'.Whole :=
        ⟨by rw [hobj', hlink', Option.isSome_none], fun o ho => by cases hobj'.symm.trans ho⟩
      refine ⟨hwhole, ?_, by rw [loaded, hobj', Option.isSome_none]⟩
      rw [handles_of_none h hobj, handles_of_none hwhole hobj', openAfter_failed]
    split
    · exact ⟨h, rfl, by rw [loaded, hobj, Option.isSome_none]⟩
    · rename_i o _
      split
      · exact hfailed g hobj hlink o
      · dsimp only
        split
        · exact hfailed { g with
            prog := if a.program then some o else none
            map := if a.map then some o else none } hobj hlink o
        · rename_i hfound
          obtain ⟨hprogram, hmap⟩ := not_or.mp hfound
          have hprogram : a.program = true := by simpa using hprogram
          have hmap : a.map = true := by simpa using hmap
          split
          · exact hfailed { g with
              prog := if a.program then some o else none
              map := if a.map then some o else none
              link := none } hobj rfl o
          · rename_i l _
            refine ⟨⟨rfl, fun o' ho' => ?_⟩, ?_, rfl⟩
            · obtain rfl : o = o' := Option.some.inj ho'
              exact ⟨if_pos hprogram, if_pos hmap⟩
            · rw [handles_of_none h hobj]
              simp [BpfState.handles]

theorem unload_legal {g : BpfState} (h : g.Whole) :
    (unload g).1.Whole ∧ openAfter g.handles (unload g).2 = some (unload g).1.handles := by
  refine ⟨⟨rfl, nofun⟩, ?_⟩
  cases hobj : g.obj with
  | none =>
      rw [handles_of_none h hobj, unload, link_of_none h hobj, hobj]
      rfl
  | some o =>
      obtain ⟨l, hl⟩ : ∃ l, g.link = some l := by
        have hattached := h.attached
        rw [hobj] at hattached
        exact Option.isSome_iff_exists.mp hattached
      simp [BpfState.handles, unload, hobj, hl]

/-- Draining is legal unless the map is that of an object that is closed. -/
def Drainable (g : BpfState) : Prop := g.map = none ∨ loaded g = true

theorem drain_legal {g : BpfState} (h : g.Whole) :
    (Drainable g ∧ openAfter g.handles (drainCalls g) = some g.handles) ∨
      ¬ Drainable g ∧ openAfter g.handles (drainCalls g) = none := by
  unfold Drainable drainCalls
  cases hmap : g.map with
  | none => exact .inl ⟨.inl rfl, rfl⟩
  | some m =>
      cases hobj : g.obj with
      | none =>
          refine .inr ⟨?_, ?_⟩
          · rw [loaded, hobj]
            simp
          · rw [handles_of_none h hobj]
            exact openAfter_used_of_not_mem [] List.not_mem_nil
      | some o =>
          obtain rfl : m = o := Option.some.inj (hmap.symm.trans (h.own o hobj).2)
          refine .inl ⟨.inr (by rw [loaded, hobj]; rfl), ?_⟩
          have hopen : Handle.object m ∈ g.handles := by
            rw [BpfState.handles, hobj]
            exact List.mem_append_right _ (List.mem_singleton_self _)
          exact openAfter_used [] hopen

/-! ## Any use of the loader -/

def drained (g : BpfState) : List LoaderOp → List BpfState
  | [] => []
  | op :: ops =>
      (if op = .drain then [g] else []) ++ drained (op.run g).1 ops

theorem drained_cons (g : BpfState) (op : LoaderOp) (ops : List LoaderOp) :
    (∀ g' ∈ drained g (op :: ops), Drainable g') ↔
      (op = .drain → Drainable g) ∧ ∀ g' ∈ drained (op.run g).1 ops, Drainable g' := by
  rw [drained]
  split
  · rename_i hdrain
    simp [hdrain]
  · rename_i hnot
    simp [hnot]

/-- An operation other than a drain that finds a map without a loaded object is legal. -/
theorem run_legal {g : BpfState} (h : g.Whole) {op : LoaderOp} (hdrain : op = .drain → Drainable g) :
    (op.run g).1.Whole ∧ openAfter g.handles (op.run g).2 = some (op.run g).1.handles := by
  cases op with
  | load a => exact ⟨(load_legal h a).1, (load_legal h a).2.1⟩
  | unload => exact unload_legal h
  | drain =>
      obtain ⟨_, hlegal⟩ | ⟨hnot, _⟩ := drain_legal h
      · exact ⟨h, hlegal⟩
      · exact absurd (hdrain rfl) hnot

theorem run_illegal {g : BpfState} (h : g.Whole) {op : LoaderOp} (hdrain : ¬ (op = .drain → Drainable g)) :
    openAfter g.handles (op.run g).2 = none := by
  obtain ⟨rfl, hnot⟩ := Classical.not_imp.mp hdrain
  obtain ⟨hyes, _⟩ | ⟨_, hillegal⟩ := drain_legal h
  · exact absurd hyes hnot
  · exact hillegal

theorem runOps_legal {g : BpfState} (h : g.Whole) (ops : List LoaderOp) :
    openAfter g.handles (runOps g ops).2 = some (runOps g ops).1.handles ↔
      ∀ g' ∈ drained g ops, Drainable g' := by
  induction ops generalizing g with
  | nil => simp [runOps, drained]
  | cons op ops ih =>
      rw [drained_cons, runOps, openAfter_append]
      by_cases hdrain : op = .drain → Drainable g
      · obtain ⟨hwhole, hlegal⟩ := run_legal h hdrain
        rw [hlegal, Option.bind_some]
        exact (ih hwhole).trans ⟨fun hall => ⟨hdrain, hall⟩, fun hall => hall.2⟩
      · rw [run_illegal h hdrain, Option.bind_none]
        exact ⟨nofun, fun hall => absurd hall.1 hdrain⟩

/-- Whatever is loaded, unloaded and drained, and whatever libbpf answers: the calls are
legal, and what is open at the end is the object and the link of the state, exactly when
each drain finds no map or a loaded object. -/
theorem loader_legal_iff (ops : List LoaderOp) :
    openAfter [] (runOps {} ops).2 = some (runOps {} ops).1.handles ↔
      ∀ g ∈ drained {} ops, Drainable g :=
  runOps_legal whole_empty ops

end Memflux.Ebpf
