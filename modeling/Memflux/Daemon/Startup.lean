import Memflux.Core.Parser
import Memflux.Lib.Handles

/-! # Arguments and the log

`main` reads its arguments from left to right and sets the log up at once where one of
them asks for it, before there is a configuration; `run_daemon` does so only if nothing
did before.
-/

namespace Memflux.Daemon

open Memflux.Core Handles

/-! ## The log -/

/-- The state of the log; the file is its own. -/
structure Log where
  level : LogLevel := .info
  fp : Option Nat := none
  ownFp : Bool := false
  initialized : Bool := false

/-- The first part of `log_init`: the old file is closed. -/
def Log.closeOwn (g : Log) : Log × List (Use Nat) :=
  match g.fp with
  | some h => if g.ownFp then ({ g with fp := none, ownFp := false }, [.closed h]) else (g, [])
  | none => (g, [])

/-- `log_init`, with what `fopen` returns if there is a name. -/
def logInit (g : Log) (lvl : LogLevel) (file : Bytes) (opened : Option Nat) : Log × List (Use Nat) :=
  let (g, us) := { g with level := lvl }.closeOwn
  if file ≠ [] then
    ({ g with fp := opened, ownFp := opened.isSome, initialized := true },
      us ++ opened.toList.map Use.opened)
  else ({ g with initialized := true }, us)

/-- What `log_msg` does to the file; without one it writes to `stderr`. -/
def logMsg (g : Log) : List (Use Nat) := g.fp.toList.map Use.used

/-! ## The arguments -/

structure Main where
  cfgPath : Bytes := ascii "/etc/memflux.conf"
  log : Log := {}
  calls : List (Use Nat) := []

def Main.logInit (m : Main) (lvl : LogLevel) (file : Bytes) (opened : Option Nat) : Main :=
  { m with
    log := (Daemon.logInit m.log lvl file opened).1
    calls := m.calls ++ (Daemon.logInit m.log lvl file opened).2 }

/-- The arguments that stand alone; `none` after the help. -/
def flag (m : Main) (a : Bytes) : Option Main :=
  if a = ascii "-f" then some { m with cfgPath := ascii "memflux.conf" }
  else if a = ascii "-v" then some (m.logInit .debug [] none)
  else if a = ascii "-h" ∨ a = ascii "--help" then none
  else some m

/-- The loop of `main`. `opens` gives what `fopen` returns, by the number of arguments left.
The level of `-l` is that of a configuration that is not loaded yet. -/
def readArgs (opens : Nat → Option Nat) : List Bytes → Main → Option Main
  | [], m => some m
  | [a], m => flag m a
  | a :: p :: rest, m =>
      if a = ascii "-c" then readArgs opens rest { m with cfgPath := p }
      else if a = ascii "-l" then readArgs opens rest (m.logInit .info p (opens rest.length))
      else
        match flag m a with
        | none => none
        | some m => readArgs opens (p :: rest) m

/-- `main` and the start of `run_daemon`, where `conf` gives the level of the configuration at
a path; `invoked` stands for `INVOCATION_ID`. -/
def startLog (invoked : Bool) (conf : Bytes → LogLevel) (opens : Nat → Option Nat)
    (argv : List Bytes) : Option Main :=
  let m := if invoked then {} else ({} : Main).logInit .info [] none
  (readArgs opens argv m).map fun m =>
    if m.log.initialized then m else m.logInit (conf m.cfgPath) [] none

/-! ## What is open -/

/-- The file of the log is its own and the only one that is open. -/
structure Main.Tidy (m : Main) : Prop where
  own : m.log.ownFp = m.log.fp.isSome
  legal : openAfter [] m.calls = some m.log.fp.toList

theorem logInit_spec {g : Log} (h : g.ownFp = g.fp.isSome) (lvl : LogLevel) (file : Bytes)
    (opened : Option Nat) :
    (logInit g lvl file opened).1 =
        { level := lvl, fp := if file = [] then none else opened,
          ownFp := (if file = [] then none else opened).isSome, initialized := true } ∧
      openAfter g.fp.toList (logInit g lvl file opened).2 =
        some (if file = [] then none else opened).toList := by
  have hclose : ({ g with level := lvl } : Log).closeOwn.1 =
        { g with level := lvl, fp := none, ownFp := false } ∧
      openAfter g.fp.toList ({ g with level := lvl } : Log).closeOwn.2 = some [] := by
    unfold Log.closeOwn
    cases hfp : g.fp with
    | none =>
        rw [hfp] at h
        simp [h]
    | some f =>
        rw [hfp] at h
        simp [h]
  obtain ⟨hstate, hclosed⟩ := hclose
  unfold logInit
  dsimp only
  rw [hstate]
  by_cases hfile : file = []
  · rw [if_neg (not_not.mpr hfile), if_pos hfile]
    exact ⟨rfl, hclosed⟩
  · rw [if_pos hfile, if_neg hfile]
    refine ⟨rfl, ?_⟩
    rw [openAfter_append, hclosed, Option.bind_some]
    cases opened with
    | none => rfl
    | some f => simp

theorem Main.Tidy.logInit {m : Main} (h : m.Tidy) (lvl : LogLevel) (file : Bytes)
    (opened : Option Nat) : (m.logInit lvl file opened).Tidy := by
  obtain ⟨hstate, hlegal⟩ := logInit_spec h.own lvl file opened
  unfold Main.logInit
  refine ⟨?_, ?_⟩
  · dsimp only
    rw [hstate]
  · dsimp only
    rw [openAfter_append, h.legal, Option.bind_some, hlegal, hstate]

theorem tidy_empty : ({} : Main).Tidy := ⟨rfl, rfl⟩

/-! ## The last argument wins -/

/-- The arguments that set the log up, with what `fopen` returned. -/
inductive LogArg where
  | file (p : Bytes) (opened : Option Nat)
  | verbose

/-- The level and the file of the log after such an argument. -/
def LogArg.sets : LogArg → LogLevel × Option Nat
  | .file p opened => (.info, if p = [] then none else opened)
  | .verbose => (.debug, none)

def logArgs (opens : Nat → Option Nat) : List Bytes → List LogArg
  | [] => []
  | [a] => if a = ascii "-v" then [.verbose] else []
  | a :: p :: rest =>
      if a = ascii "-c" then logArgs opens rest
      else if a = ascii "-l" then .file p (opens rest.length) :: logArgs opens rest
      else (if a = ascii "-v" then [.verbose] else []) ++ logArgs opens (p :: rest)

/-- What the log is after the arguments `l`. -/
structure Main.After (m : Main) (g : Log) (l : List LogArg) : Prop where
  tidy : m.Tidy
  sets : (m.log.level, m.log.fp) = (l.getLast?).elim (g.level, g.fp) LogArg.sets
  initialized : m.log.initialized = (g.initialized || !l.isEmpty)

theorem Main.Tidy.after {m : Main} (h : m.Tidy) : m.After m.log [] :=
  ⟨h, rfl, (Bool.or_false _).symm⟩

theorem Main.After.cons {m m' : Main} {g : Log} {a : LogArg} {l : List LogArg}
    (h : m'.After m.log l) (hsets : (m.log.level, m.log.fp) = a.sets)
    (hinit : m.log.initialized = true) : m'.After g (a :: l) := by
  refine ⟨h.tidy, ?_, ?_⟩
  · rw [h.sets, hsets, List.getLast?_cons]
    cases l.getLast? <;> rfl
  · rw [h.initialized, hinit]
    simp

theorem Main.Tidy.logInit_sets {m : Main} (h : m.Tidy) (lvl : LogLevel) (file : Bytes)
    (opened : Option Nat) :
    ((m.logInit lvl file opened).log.level, (m.logInit lvl file opened).log.fp) =
        (lvl, if file = [] then none else opened) ∧
      (m.logInit lvl file opened).log.initialized = true := by
  obtain ⟨hstate, -⟩ := logInit_spec h.own lvl file opened
  unfold Main.logInit
  dsimp only
  rw [hstate]
  exact ⟨rfl, rfl⟩

theorem flag_after {m m' : Main} (h : m.Tidy) {a : Bytes} (hflag : flag m a = some m') :
    m'.After m.log (if a = ascii "-v" then [.verbose] else []) := by
  unfold flag at hflag
  split at hflag
  · rename_i hf
    have hv : ¬ a = ascii "-v" := by
      rw [hf]
      decide +kernel
    rw [if_neg hv]
    cases hflag
    exact ⟨⟨h.own, h.legal⟩, rfl, (Bool.or_false _).symm⟩
  · split at hflag
    · rename_i hv
      rw [if_pos hv]
      cases hflag
      obtain ⟨hsets, hinit⟩ := h.logInit_sets .debug [] none
      exact (h.logInit .debug [] none).after.cons hsets hinit
    · rename_i hv
      rw [if_neg hv]
      split at hflag
      · cases hflag
      · cases hflag
        exact h.after

theorem Main.After.append {m m' : Main} {g : Log} {l l' : List LogArg} (h : m.After g l)
    (h' : m'.After m.log l') : m'.After g (l ++ l') := by
  refine ⟨h'.tidy, ?_, ?_⟩
  · rw [h'.sets, List.getLast?_append, h.sets]
    cases l'.getLast? with
    | none => rfl
    | some a => rfl
  · rw [h'.initialized, h.initialized]
    cases l <;> cases l' <;> simp

theorem readArgs_after {opens : Nat → Option Nat} {argv : List Bytes} {m m' : Main} (h : m.Tidy)
    (hread : readArgs opens argv m = some m') : m'.After m.log (logArgs opens argv) := by
  fun_induction readArgs opens argv m with
  | case1 m =>
      cases hread
      exact h.after
  | case2 a m => exact flag_after h hread
  | case3 p rest m ih =>
      have hafter := ih ⟨h.own, h.legal⟩ hread
      rw [logArgs, if_pos rfl]
      exact hafter
  | case4 p rest m hc ih =>
      have hafter := ih (h.logInit .info p (opens rest.length)) hread
      obtain ⟨hsets, hinit⟩ := h.logInit_sets .info p (opens rest.length)
      rw [logArgs, if_neg hc, if_pos rfl]
      exact hafter.cons hsets hinit
  | case5 => cases hread
  | case6 a p rest m hc hl m₁ hflag ih =>
      have hfirst := flag_after h hflag
      rw [logArgs, if_neg hc, if_neg hl]
      exact hfirst.append (ih hfirst.tidy hread)

/-! ## The start -/

/-- Whatever the arguments are and whichever files can be opened, if the daemon starts:
every use of a log file is legal, any messages to come included, and only the one in use is
open. Level and file are those of the last `-l` or `-v`; the level of the configuration
counts only where there is neither, and systemd started the daemon. -/
theorem startLog_last {invoked : Bool} {conf : Bytes → LogLevel} {opens : Nat → Option Nat}
    {argv : List Bytes} {m : Main} (hstart : startLog invoked conf opens argv = some m) (messages : Nat) :
    openAfter [] (m.calls ++ (List.replicate messages (logMsg m.log)).flatten) = some m.log.fp.toList ∧
      (m.log.level, m.log.fp) =
        ((logArgs opens argv).getLast?).elim (if invoked then conf m.cfgPath else .info, none) LogArg.sets := by
  have hmessages : ∀ n, openAfter m.log.fp.toList (List.replicate n (logMsg m.log)).flatten =
      some m.log.fp.toList := by
    intro n
    induction n with
    | zero => rfl
    | succ n ih =>
        rw [List.replicate_succ, List.flatten_cons, openAfter_append, logMsg]
        cases hfp : m.log.fp with
        | none =>
            rw [logMsg, hfp] at ih
            exact ih
        | some f =>
            rw [logMsg, hfp] at ih
            simpa using ih
  obtain ⟨m₁, hread, hm⟩ := Option.map_eq_some_iff.mp hstart
  have hfirst : (if invoked then ({} : Main) else ({} : Main).logInit .info [] none).Tidy := by
    split
    · exact tidy_empty
    · exact tidy_empty.logInit .info [] none
  have hafter := readArgs_after hfirst hread
  have hlast : m.Tidy ∧ (m.log.level, m.log.fp) =
      ((logArgs opens argv).getLast?).elim (if invoked then conf m.cfgPath else .info, none) LogArg.sets := by
    cases hset : m₁.log.initialized with
    | true =>
        rw [hset, if_pos rfl] at hm
        subst hm
        refine ⟨hafter.tidy, hafter.sets.trans ?_⟩
        cases hargs : logArgs opens argv with
        | cons a l => rw [List.getLast?_cons]; rfl
        | nil =>
            -- Without such an argument the log was set up before the arguments were read.
            have hinit := hafter.initialized
            rw [hset, hargs] at hinit
            cases invoked with
            | true => cases hinit
            | false => rfl
    | false =>
        rw [hset, if_neg (by decide)] at hm
        have hinit := hafter.initialized
        rw [hset] at hinit
        have hinvoked : invoked = true := by
          cases invoked with
          | true => rfl
          | false => cases hinit
        have hargs : logArgs opens argv = [] := by
          rw [hinvoked] at hinit
          cases hl : logArgs opens argv with
          | nil => rfl
          | cons a l =>
              rw [hl] at hinit
              cases hinit
        obtain ⟨hsets, -⟩ := hafter.tidy.logInit_sets (conf m₁.cfgPath) [] none
        subst hm
        rw [hargs, hinvoked]
        exact ⟨hafter.tidy.logInit _ _ _, hsets⟩
  refine ⟨?_, hlast.2⟩
  rw [openAfter_append, hlast.1.legal, Option.bind_some]
  exact hmessages messages

/-- A log file, and then `-v`: the file is closed, and the daemon logs to `stderr`. -/
theorem startLog_last_verbose :
    ∃ m, startLog true (fun _ => .error) (fun _ => some 7) [ascii "-l", ascii "memflux.log", ascii "-v"] =
        some m ∧ m.calls = [.opened 7, .closed 7] ∧ (m.log.level, m.log.fp) = (.debug, none) := by
  obtain ⟨m, hm⟩ : ∃ m, startLog true (fun _ => .error) (fun _ => some 7)
      [ascii "-l", ascii "memflux.log", ascii "-v"] = some m := ⟨_, rfl⟩
  have hcalls : m.calls = [.opened 7, .closed 7] := by
    rw [← Option.some.inj hm]
    rfl
  exact ⟨m, hm, hcalls, (startLog_last hm 0).2⟩

end Memflux.Daemon
