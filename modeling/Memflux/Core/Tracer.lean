import Memflux.Core.Reuse
import Memflux.Core.Selection
import Memflux.Ebpf.Loader

/-! # The engine and the tracer

The cycles ask the loader for the tracer until it is loaded, and drain its counters from
then on. Here the loader gives the answers that a cycle otherwise takes from outside.
-/

namespace Memflux.Core

open Handles
open Memflux.Ebpf (Handle BpfState Loading LoaderOp runOps)

section

variable (F : Type) [Double F]

structure Traced where
  engine : Engine F := {}
  bpf : BpfState := {}

/-- One cycle, and what libbpf would answer if the cycle loaded the tracer. -/
structure TracedStep where
  step : Step F
  loading : Loading

end

section

variable {F : Type} [Double F]

def loadOps (e : Engine F) (k : Answers F) (a : Loading) : Call → List LoaderOp
  | .run => if e.ebpfOn = false ∧ k.ebpfAvailable = true then [.load a] else []
  | .force => []

/-- The answers to a cycle, with those of the loader. -/
def TracedStep.answers (st : TracedStep F) (t : Traced F) : Answers F :=
  { st.step.answers with
    ebpfLoads := (Ebpf.load t.bpf st.loading).1
    ebpfLoaded := Ebpf.loaded (runOps t.bpf (loadOps t.engine st.step.answers st.loading st.step.call)).1 }

def drainOps (cfg : Config F) (e : Engine F) (k : Answers F) : Call → List LoaderOp
  | .run =>
      if crisis k.psi k.mem = false ∧ (openCycle cfg e k).1.ebpfOn = true ∧ k.ebpfLoaded = true then
        [.drain]
      else []
  | .force => []

def TracedStep.ops (st : TracedStep F) (t : Traced F) : List LoaderOp :=
  loadOps t.engine (st.answers t) st.loading st.step.call ++
    drainOps st.step.cfg t.engine (st.answers t) st.step.call

def TracedStep.run (st : TracedStep F) (t : Traced F) : Traced F :=
  { engine := (cycle st.step.cfg t.engine (st.answers t) st.step.call).engine
    bpf := (runOps t.bpf (st.ops t)).1 }

/-- The engine and the loader after some cycles, with the calls to libbpf. -/
def trace (t : Traced F) : List (TracedStep F) → Traced F × List (Use Handle)
  | [] => (t, [])
  | st :: l => ((trace (st.run t) l).1, (runOps t.bpf (st.ops t)).2 ++ (trace (st.run t) l).2)

theorem trace_append (t : Traced F) (l l' : List (TracedStep F)) :
    trace t (l ++ l') =
      ((trace (trace t l).1 l').1, (trace t l).2 ++ (trace (trace t l).1 l').2) := by
  induction l generalizing t with
  | nil => rfl
  | cons st l ih =>
      rw [List.cons_append, trace, ih (st.run t), trace]
      dsimp only
      rw [List.append_assoc]

/-! ## What the engine knows -/

/-- Whether the tracer is on once a cycle has had its chance to load it. -/
def ebpfAfter (e : Engine F) (k : Answers F) : Call → Bool
  | .run => (ebpfInit e k).ebpfOn
  | .force => e.ebpfOn

theorem ebpfInit_ebpfOn {e₁ e₂ : Engine F} (h : e₁.ebpfOn = e₂.ebpfOn) (k : Answers F) :
    (ebpfInit e₁ k).ebpfOn = (ebpfInit e₂ k).ebpfOn := by
  unfold ebpfInit
  rw [h]
  split
  · rfl
  · exact h

theorem openCycle_ebpfOn (cfg : Config F) (e : Engine F) (k : Answers F) :
    (openCycle cfg e k).1.ebpfOn = ebpfAfter e k .run := by
  have hkeep : (damonInit cfg (cycleDamonConfig cfg) (beginCycle e k) k).1.ebpfOn = e.ebpfOn :=
    (damonInit_keeps cfg (cycleDamonConfig cfg) (beginCycle e k) k).2.2
  exact ebpfInit_ebpfOn hkeep k

theorem scoringEngine_ebpfOn (cfg : Config F) (e : Engine F) (k : Answers F) (c : Call) :
    (scoringEngine cfg e k c).ebpfOn = ebpfAfter e k c := by
  cases c with
  | run =>
      rw [← openCycle_ebpfOn cfg e k, scoringEngine, thrashGuard]
      split <;> rfl
  | force => exact (damonInit_keeps cfg {} (beginCycle e k) k).2.2

theorem prepare_ebpfOn (cfg : Config F) (e : Engine F) (k : Answers F) (c : Call) :
    (prepare cfg e k c).1.ebpfOn = ebpfAfter e k c := by
  cases hscores : scores k c with
  | true =>
      rw [prepare_of_scores cfg e hscores, (computeScores_backends cfg _ k).2, scoringEngine_ebpfOn]
  | false =>
      cases c with
      | run => rw [prepare_of_not_scores cfg e hscores, openCycle_ebpfOn]
      | force => cases hscores

theorem cycle_ebpfOn (cfg : Config F) (e : Engine F) (k : Answers F) (c : Call) :
    (cycle cfg e k c).engine.ebpfOn = ebpfAfter e k c := by
  cases hacts : acts cfg k c with
  | true =>
      rw [cycle_of_acts hacts]
      exact prepare_ebpfOn cfg e k c
  | false =>
      rw [cycle_of_not_acts hacts]
      exact prepare_ebpfOn cfg e k c

/-! ## One cycle -/

/-- The engine takes the tracer for loaded exactly while it is. -/
structure Agrees (t : Traced F) : Prop where
  whole : t.bpf.Whole
  on : t.engine.ebpfOn = Ebpf.loaded t.bpf

/-- The `load` of a cycle is made only while nothing is loaded, and the engine believes
its result. -/
theorem loadOps_agrees {t : Traced F} (h : Agrees t) (st : TracedStep F) :
    (runOps t.bpf (loadOps t.engine (st.answers t) st.loading st.step.call)).1.Whole ∧
      openAfter t.bpf.handles
          (runOps t.bpf (loadOps t.engine (st.answers t) st.loading st.step.call)).2 =
        some (runOps t.bpf (loadOps t.engine (st.answers t) st.loading st.step.call)).1.handles ∧
      ebpfAfter t.engine (st.answers t) st.step.call =
        Ebpf.loaded (runOps t.bpf (loadOps t.engine (st.answers t) st.loading st.step.call)).1 := by
  cases hcall : st.step.call with
  | force => exact ⟨h.whole, rfl, h.on⟩
  | run =>
      rw [loadOps, ebpfAfter, ebpfInit]
      by_cases hstart : t.engine.ebpfOn = false ∧ (st.answers t).ebpfAvailable = true
      · rw [if_pos hstart, if_pos hstart]
        obtain ⟨hwhole, hlegal, hloaded⟩ := Ebpf.load_legal h.whole st.loading
        refine ⟨hwhole, ?_, hloaded⟩
        rw [Ebpf.runOps_single]
        exact hlegal
      · rw [if_neg hstart, if_neg hstart]
        exact ⟨h.whole, rfl, h.on⟩

/-- The engine asks whether the tracer is loaded after its own `load`. -/
theorem answers_ebpfLoaded (t : Traced F) (st : TracedStep F) :
    (st.answers t).ebpfLoaded =
      Ebpf.loaded (runOps t.bpf (loadOps t.engine (st.answers t) st.loading st.step.call)).1 := rfl

theorem drainOps_cases (t : Traced F) (st : TracedStep F) :
    drainOps st.step.cfg t.engine (st.answers t) st.step.call = [] ∨
      drainOps st.step.cfg t.engine (st.answers t) st.step.call = [.drain] ∧
        Ebpf.loaded (runOps t.bpf (loadOps t.engine (st.answers t) st.loading st.step.call)).1 = true := by
  rw [← answers_ebpfLoaded]
  cases st.step.call with
  | force => exact .inl rfl
  | run =>
      rw [drainOps]
      split
      · rename_i hdrain
        exact .inr ⟨rfl, hdrain.2.2⟩
      · exact .inl rfl

theorem ops_agrees {t : Traced F} (h : Agrees t) (st : TracedStep F) :
    Agrees (st.run t) ∧
      openAfter t.bpf.handles (runOps t.bpf (st.ops t)).2 = some (st.run t).bpf.handles := by
  obtain ⟨hwhole, hlegal, hon⟩ := loadOps_agrees h st
  have hengine := cycle_ebpfOn st.step.cfg t.engine (st.answers t) st.step.call
  unfold TracedStep.run TracedStep.ops
  rw [Ebpf.runOps_append]
  dsimp only
  rw [openAfter_append, hlegal, Option.bind_some]
  obtain hnone | ⟨hdrain, hloaded⟩ := drainOps_cases t st
  · rw [hnone]
    exact ⟨⟨hwhole, hengine.trans hon⟩, rfl⟩
  · rw [hdrain, Ebpf.runOps_single]
    refine ⟨⟨hwhole, hengine.trans hon⟩, ?_⟩
    obtain ⟨-, hlegal'⟩ | ⟨hnot, -⟩ := Ebpf.drain_legal hwhole
    · exact hlegal'
    · exact absurd (.inr hloaded) hnot

theorem ops_on {t : Traced F} (h : Agrees t) (hon : t.engine.ebpfOn = true) (st : TracedStep F) :
    (st.run t).bpf = t.bpf ∧
      ∀ u ∈ (runOps t.bpf (st.ops t)).2, ∃ o, t.bpf.obj = some o ∧ u = .used (.object o) := by
  have hload : loadOps t.engine (st.answers t) st.loading st.step.call = [] := by
    cases st.step.call with
    | run => exact if_neg (by simp [hon])
    | force => rfl
  obtain ⟨o, ho⟩ : ∃ o, t.bpf.obj = some o :=
    Option.isSome_iff_exists.mp (h.on.symm.trans hon)
  unfold TracedStep.run TracedStep.ops
  rw [hload, List.nil_append]
  dsimp only
  obtain hnone | ⟨hdrain, -⟩ := drainOps_cases t st
  · rw [hnone]
    exact ⟨rfl, nofun⟩
  · rw [hdrain, Ebpf.runOps_single]
    refine ⟨rfl, fun u hu => ⟨o, ho, ?_⟩⟩
    have hu : u ∈ t.bpf.map.toList.map fun o => (Use.used (Handle.object o)) := hu
    rw [(h.whole.own o ho).2] at hu
    exact List.mem_singleton.mp hu

/-! ## Any cycles -/

theorem trace_agrees {t : Traced F} (h : Agrees t) (l : List (TracedStep F)) :
    Agrees (trace t l).1 ∧ openAfter t.bpf.handles (trace t l).2 = some (trace t l).1.bpf.handles := by
  induction l generalizing t with
  | nil => exact ⟨h, rfl⟩
  | cons st l ih =>
      obtain ⟨hnext, hlegal⟩ := ops_agrees h st
      obtain ⟨hlast, hrest⟩ := ih hnext
      refine ⟨hlast, ?_⟩
      rw [trace, openAfter_append, hlegal]
      exact hrest

theorem trace_on {t : Traced F} (h : Agrees t) (hon : t.engine.ebpfOn = true)
    (l : List (TracedStep F)) :
    (trace t l).1.bpf = t.bpf ∧
      ∀ u ∈ (trace t l).2, ∃ o, t.bpf.obj = some o ∧ u = .used (.object o) := by
  induction l generalizing t with
  | nil => exact ⟨rfl, nofun⟩
  | cons st l ih =>
      obtain ⟨hsame, hcalls⟩ := ops_on h hon st
      obtain ⟨hnext, -⟩ := ops_agrees h st
      have hon' : (st.run t).engine.ebpfOn = true := by
        rw [hnext.on, hsame, ← h.on, hon]
      obtain ⟨hrest, hcalls'⟩ := ih hnext hon'
      refine ⟨hrest.trans hsame, fun u hu => ?_⟩
      rcases List.mem_append.mp hu with hu | hu
      · exact hcalls u hu
      · rw [← hsame]
        exact hcalls' u hu

theorem agrees_empty : Agrees ({} : Traced F) := ⟨Ebpf.whole_empty, rfl⟩

/-- Over any cycles, and whatever libbpf answers: no object, map or link is used or closed
that is not open, what is open is what the loader holds, and the engine takes the tracer
for loaded exactly while it is. From then on the cycles only read the counters of the
object that was loaded. -/
theorem tracer_legal (l l' : List (TracedStep F)) :
    openAfter [] (trace {} l).2 = some (trace ({} : Traced F) l).1.bpf.handles ∧
      (trace ({} : Traced F) l).1.engine.ebpfOn = Ebpf.loaded (trace ({} : Traced F) l).1.bpf ∧
      ((trace ({} : Traced F) l).1.engine.ebpfOn = true →
        (trace ({} : Traced F) (l ++ l')).1.bpf = (trace ({} : Traced F) l).1.bpf ∧
          ∃ o us, (trace ({} : Traced F) l).1.bpf.obj = some o ∧
            (trace ({} : Traced F) (l ++ l')).2 = (trace ({} : Traced F) l).2 ++ us ∧
            ∀ u ∈ us, u = .used (.object o)) := by
  obtain ⟨hagrees, hlegal⟩ := trace_agrees (F := F) agrees_empty l
  refine ⟨hlegal, hagrees.on, fun hon => ?_⟩
  obtain ⟨hsame, hcalls⟩ := trace_on hagrees hon l'
  obtain ⟨o, ho⟩ : ∃ o, (trace ({} : Traced F) l).1.bpf.obj = some o :=
    Option.isSome_iff_exists.mp (hagrees.on.symm.trans hon)
  rw [trace_append]
  refine ⟨hsame, o, _, ho, rfl, fun u hu => ?_⟩
  obtain ⟨o', ho', rfl⟩ := hcalls u hu
  rw [Option.some.inj (ho.symm.trans ho')]

/-- A cycle on a kernel with the tracepoint, and nothing else. -/
def bareStep (a : Loading) : TracedStep ℚ where
  step := { cfg := {}, answers := { Answers.closed ℚ with ebpfAvailable := true }, call := .run }
  loading := a

-- The attachment fails in the first cycle; the pointers that it leaves are not followed.
example :
    (trace {} [bareStep ⟨some 1, true, true, true, none⟩, bareStep ⟨some 2, true, true, true, some 0⟩]).2 =
      [.opened (.object 1), .used (.object 1), .closed (.object 1),
        .opened (.object 2), .used (.object 2), .opened (.link 0), .used (.object 2)] := by
  rfl

end

end Memflux.Core
