import Memflux.Core.Latch
import Memflux.Core.Printing
import Memflux.Core.Selection

/-! # Switches of the kernel

The files under `/sys` through which the daemon drives DAMON, the multi-generation LRU
and KSM. The streams that it writes to are tested while the text is still in their
buffers, so it never learns whether the kernel took it; and the texts in which the
kernel says that a switch is on are not the numbers that it looks for.
-/

namespace Memflux.Core

open Double

/-- A file under `/sys`, and what it reads after a text was written to it, or `none` where
the kernel refuses the text. -/
structure SysFile where
  text : Bytes
  readable : Bool
  writable : Bool
  store : Bytes → Option Bytes

/-- The files, and the texts that were written out. -/
structure Sysfs where
  file : String → Option SysFile
  written : List (String × Bytes) := []

def Sysfs.opens (fs : Sysfs) (path : String) : Bool := (fs.file path).any (·.writable)

/-- `w_str`, `write_sys` and the writes to `lru_gen`. The result is that of the buffer: the
text goes out when the stream is closed. -/
def wStr (fs : Sysfs) (path : String) (v : Bytes) : Bool × Sysfs :=
  match fs.file path with
  | none => (false, fs)
  | some f =>
      if f.writable = false then (false, fs)
      else
        (true,
          { file := Function.update fs.file path (some { f with text := (f.store v).getD f.text })
            written := fs.written ++ [(path, v)] })

def wNum (fs : Sysfs) (path : String) (v : Nat) : Bool × Sysfs := wStr fs path (digits v)

def rNum (fs : Sysfs) (path : String) : Option Nat :=
  (fs.file path).bind fun f => if f.readable then extract f.text else none

/-! ## `damon` -/

namespace Damon

def switch : String := "/sys/module/damon_reclaim/parameters/enabled"

def available (fs : Sysfs) : Bool := (fs.file switch).isSome

def enabled (fs : Sysfs) : Bool := (rNum fs switch).any (· ≠ 0)

/-- What `configure` writes, in this order. -/
def params (dc : DamonConfig) : List (String × Nat) :=
  [("/sys/module/damon_reclaim/parameters/sample_interval", dc.sampleUs),
   ("/sys/module/damon_reclaim/parameters/aggr_interval", dc.aggrUs),
   ("/sys/module/damon_reclaim/parameters/min_nr_regions", 10),
   ("/sys/module/damon_reclaim/parameters/max_nr_regions", dc.maxRegions),
   ("/sys/module/damon_reclaim/parameters/min_age", dc.minAgeMs * 1000),
   ("/sys/module/damon_reclaim/parameters/quota_ms", dc.quotaMs),
   ("/sys/module/damon_reclaim/parameters/quota_reset_interval_ms", dc.quotaResetMs)]

def configure (fs : Sysfs) (dc : DamonConfig) : Sysfs :=
  if available fs = false then fs else (params dc).foldl (fun fs p => (wNum fs p.1 p.2).2) fs

def enable (fs : Sysfs) (on : Bool) : Bool × Sysfs :=
  if available fs = false then (false, fs)
  else if on = enabled fs then (true, fs)
  else wStr fs switch (ascii (if on then "Y" else "N"))

end Damon

/-! ## `mglru` -/

namespace Mglru

def features : String := "/sys/kernel/mm/lru_gen/enabled"

def minTtl : String := "/sys/kernel/mm/lru_gen/min_ttl_ms"

def available (fs : Sysfs) : Bool := (fs.file features).any (·.readable)

def enabled (fs : Sysfs) : Bool := (rNum fs features).any (· % 2 = 1)

def enable (fs : Sysfs) (on : Bool) : Bool × Sysfs :=
  wStr fs features (ascii (if on then "0x0007" else "0x0000"))

def setMinTtlMs (fs : Sysfs) (ms : Nat) : Bool × Sysfs := wNum fs minTtl ms

end Mglru

/-! ## `sysctl` -/

/-- The text without the blanks and line ends at its end, of what one `fread` returns. -/
def readSys (fs : Sysfs) (path : String) : Bytes :=
  match fs.file path with
  | none => []
  | some f => if f.readable then (f.text.take 127).rdropWhile fun b => b = 10 ∨ b = 32 else []

def ksmRun : String := "/sys/kernel/mm/ksm/run"

def ksmSupported (fs : Sysfs) : Bool := readSys fs ksmRun ≠ []

def ksmEnable (fs : Sysfs) (on : Bool) : Bool × Sysfs := wStr fs ksmRun (ascii (if on then "1" else "2"))

/-! ## Writing -/

@[simp] theorem wStr_fst (fs : Sysfs) (path : String) (v : Bytes) :
    (wStr fs path v).1 = fs.opens path := by
  unfold wStr Sysfs.opens
  cases fs.file path with
  | none => rfl
  | some f => cases hf : f.writable <;> simp [hf]

@[simp] theorem wStr_written (fs : Sysfs) (path : String) (v : Bytes) :
    (wStr fs path v).2.written = fs.written ++ if fs.opens path then [(path, v)] else [] := by
  unfold wStr Sysfs.opens
  cases fs.file path with
  | none => simp
  | some f => cases hf : f.writable <;> simp [hf]

theorem wStr_file_of_ne (fs : Sysfs) {path other : String} (h : other ≠ path) (v : Bytes) :
    (wStr fs path v).2.file other = fs.file other := by
  unfold wStr
  cases fs.file path with
  | none => rfl
  | some f =>
      cases hf : f.writable with
      | false => simp [hf]
      | true => simp [hf, Function.update_of_ne h]

/-! ## What the kernel says -/

def IsSwitch (text : Bytes) : Prop := text = ascii "Y\n" ∨ text = ascii "N\n"

theorem extract_switch {text : Bytes} (h : IsSwitch text) : extract text = none := by
  obtain rfl | rfl := h <;> decide +kernel

theorem extract_hex (text : Bytes) : extract (ascii "0x" ++ text) = some 0 := by
  have hzero : ∀ d ∈ ([48] : Bytes), isDigit d = true := List.forall_mem_singleton.mpr rfl
  have hend : ∀ b ∈ (120 :: text).head?, isDigit b = false := fun b hb => by
    rw [← Option.some.inj hb]
    rfl
  have hnumeral := numeral_append hzero (List.cons_ne_nil _ _) 0 hend
  have htext : ascii "0x" ++ text = List.replicate 0 32 ++ ([48] ++ 120 :: text) := rfl
  rw [extract, htext, hnumeral]
  rfl

namespace Damon

theorem enabled_of_switch {fs : Sysfs} (h : ∀ f, fs.file switch = some f → IsSwitch f.text) :
    enabled fs = false := by
  unfold enabled rNum
  cases hf : fs.file switch with
  | none => rfl
  | some f =>
      rw [Option.bind_some, extract_switch (h f hf)]
      cases f.readable <;> rfl

theorem params_ne_switch (dc : DamonConfig) : ∀ p ∈ params dc, p.1 ≠ switch := by
  unfold params switch
  simp

def switchTexts (l : List (String × Bytes)) : List Bytes :=
  (l.filter fun w => w.1 = switch).map Prod.snd

theorem foldl_wNum_switchTexts (ps : List (String × Nat)) (hps : ∀ p ∈ ps, p.1 ≠ switch) (fs : Sysfs) :
    switchTexts (ps.foldl (fun fs p => (wNum fs p.1 p.2).2) fs).written = switchTexts fs.written := by
  induction ps generalizing fs with
  | nil => rfl
  | cons p ps ih =>
      rw [List.foldl_cons, ih fun q hq => hps q (List.mem_cons_of_mem _ hq), wNum, wStr_written]
      have hne : p.1 ≠ switch := hps p List.mem_cons_self
      cases fs.opens p.1 <;> simp [switchTexts, hne]

/-- A parameter that keeps the number written to it. -/
def IsParam (f : SysFile) : Prop := f.readable = true ∧ f.writable = true ∧ ∀ v, f.store v = some (v ++ [10])

theorem wNum_param {fs : Sysfs} {path : String} {f : SysFile} (hf : fs.file path = some f)
    (hparam : IsParam f) (n : Nat) :
    ∃ f', (wNum fs path n).2.file path = some f' ∧ IsParam f' ∧ f'.text = digits n ++ [10] := by
  obtain ⟨hreadable, hwritable, hstore⟩ := hparam
  refine ⟨{ f with text := digits n ++ [10] }, ?_, ⟨hreadable, hwritable, hstore⟩, rfl⟩
  simp [wNum, wStr, hf, hwritable, hstore]

theorem foldl_wNum_other (ps : List (String × Nat)) {path : String} (hps : ∀ p ∈ ps, p.1 ≠ path)
    (fs : Sysfs) : (ps.foldl (fun fs p => (wNum fs p.1 p.2).2) fs).file path = fs.file path := by
  induction ps generalizing fs with
  | nil => rfl
  | cons p ps ih =>
      rw [List.foldl_cons, ih fun q hq => hps q (List.mem_cons_of_mem _ hq)]
      exact wStr_file_of_ne fs (hps p List.mem_cons_self).symm _

/-- Each of the parameters has the last number, when no two are at one path. -/
theorem foldl_wNum_params {ps : List (String × Nat)} (hps : (ps.map Prod.fst).Nodup) {fs : Sysfs}
    (hfiles : ∀ p ∈ ps, ∃ f, fs.file p.1 = some f ∧ IsParam f) :
    ∀ p ∈ ps, ∃ f, (ps.foldl (fun fs p => (wNum fs p.1 p.2).2) fs).file p.1 = some f ∧ IsParam f ∧
      f.text = digits p.2 ++ [10] := by
  induction ps generalizing fs with
  | nil => nofun
  | cons q ps ih =>
      obtain ⟨hnew, hnodup⟩ := List.nodup_cons.mp hps
      have hapart : ∀ p ∈ ps, p.1 ≠ q.1 := fun p hp heq => hnew (heq ▸ List.mem_map_of_mem hp)
      obtain ⟨f, hf, hparam⟩ := hfiles q List.mem_cons_self
      intro p hp
      rw [List.foldl_cons]
      rcases List.mem_cons.mp hp with rfl | hp
      · rw [foldl_wNum_other ps hapart]
        exact wNum_param hf hparam p.2
      · refine ih hnodup (fun r hr => ?_) p hp
        rw [wNum, wStr_file_of_ne fs (hapart r hr)]
        exact hfiles r (List.mem_cons_of_mem _ hr)

/-- Parameters that keep what is written to them read as `configure` left them. -/
theorem configure_reads {fs : Sysfs} (havailable : available fs = true) (dc : DamonConfig)
    (hfiles : ∀ p ∈ params dc, ∃ f, fs.file p.1 = some f ∧ IsParam f) :
    ∀ p ∈ params dc, p.2 < 2 ^ 64 → rNum (configure fs dc) p.1 = some p.2 := by
  intro p hp hlt
  have hnodup : ((params dc).map Prod.fst).Nodup := by
    unfold params
    simp
  unfold configure
  rw [if_neg (by simp [havailable])]
  obtain ⟨f, hf, ⟨hreadable, -⟩, htext⟩ := foldl_wNum_params hnodup hfiles p hp
  rw [rNum, hf, Option.bind_some, if_pos hreadable, htext]
  exact extract_digits hlt fun b hb => by
    rw [← Option.some.inj hb]
    rfl

/-- The minimum age, in microseconds, on a kernel where every path is a parameter. -/
theorem configure_reads_age :
    rNum (configure { file := fun _ => some ⟨[], true, true, fun v => some (v ++ [10])⟩ } {})
      "/sys/module/damon_reclaim/parameters/min_age" = some 10000000 :=
  configure_reads rfl {} (fun _ _ => ⟨_, rfl, rfl, rfl, fun _ => rfl⟩) (_, 10000000) (by decide) (by decide)

theorem configure_file (fs : Sysfs) (dc : DamonConfig) :
    (configure fs dc).file switch = fs.file switch := by
  unfold configure
  split
  · rfl
  · exact foldl_wNum_other _ (params_ne_switch dc) fs

theorem configure_switchTexts (fs : Sysfs) (dc : DamonConfig) :
    switchTexts (configure fs dc).written = switchTexts fs.written := by
  unfold configure
  split
  · rfl
  · exact foldl_wNum_switchTexts _ (params_ne_switch dc) fs

/-- Where the switch has a text of the kernel, `enable(true)` writes, and reports whether
it could open the file. -/
theorem enable_true {fs : Sysfs} (h : ∀ f, fs.file switch = some f → IsSwitch f.text) :
    (enable fs true).1 = fs.opens switch ∧
      switchTexts (enable fs true).2.written =
        switchTexts fs.written ++ if fs.opens switch then [ascii "Y"] else [] := by
  unfold enable
  rw [enabled_of_switch h]
  by_cases havailable : available fs = false
  · have hnone : fs.file switch = none := by simpa [available] using havailable
    rw [if_pos havailable]
    simp [Sysfs.opens, hnone]
  · rw [if_neg havailable, if_neg (by decide)]
    refine ⟨wStr_fst fs switch _, ?_⟩
    rw [wStr_written]
    cases fs.opens switch <;> simp [switchTexts]

end Damon

/-! ## Cycles on these files -/

section

variable (F : Type) [Double F]

structure SysStep where
  cfg : Config F
  kernel : Answers F
  call : Call
  file : String → Option SysFile

end

section

variable {F : Type} [Double F]

namespace SysStep

def start (st : SysStep F) : Sysfs := { file := st.file }

def damonConfig (st : SysStep F) : DamonConfig :=
  match st.call with
  | .run => cycleDamonConfig st.cfg
  | .force => {}

/-- The switch after `configure`, turned on. -/
def switched (st : SysStep F) : Bool × Sysfs :=
  Damon.enable (Damon.configure st.start st.damonConfig) true

def step (st : SysStep F) : Step F where
  cfg := st.cfg
  answers :=
    { st.kernel with
      damonAvailable := Damon.available st.start
      damonEnabled := Damon.enabled st.start
      damonSwitched := st.switched.1 }
  call := st.call

def files (st : SysStep F) (e : Engine F) : Sysfs :=
  if e.damonOn = false ∧ st.cfg.enableDamon = true ∧ Damon.available st.start = true ∧
      Damon.enabled st.start = false then
    st.switched.2
  else st.start

def asks (st : SysStep F) : Bool := st.cfg.enableDamon && st.start.opens Damon.switch

/-- The file of the switch, where there is one, has a text of the kernel. -/
def Honest (st : SysStep F) : Prop := ∀ f, st.file Damon.switch = some f → IsSwitch f.text

end SysStep

def writtenBy (e : Engine F) : List (SysStep F) → List (String × Bytes)
  | [] => []
  | st :: l => (st.files e).written ++ writtenBy (st.step.outcome e).engine l

namespace SysStep

theorem opens_available {st : SysStep F} (h : st.start.opens Damon.switch = true) :
    Damon.available st.start = true := by
  obtain ⟨f, hf, -⟩ := (Option.any_eq_true _ _).mp h
  exact Option.isSome_iff_exists.mpr ⟨f, hf⟩

theorem switched_spec {st : SysStep F} (h : st.Honest) :
    st.switched.1 = st.start.opens Damon.switch ∧
      Damon.switchTexts st.switched.2.written =
        if st.start.opens Damon.switch then [ascii "Y"] else [] := by
  have hfile := Damon.configure_file st.start st.damonConfig
  have hswitch : ∀ f, (Damon.configure st.start st.damonConfig).file Damon.switch = some f →
      IsSwitch f.text := by
    rw [hfile]
    exact h
  have hopens : (Damon.configure st.start st.damonConfig).opens Damon.switch =
      st.start.opens Damon.switch := by
    rw [Sysfs.opens, hfile]
    rfl
  obtain ⟨hresult, htexts⟩ := Damon.enable_true hswitch
  rw [hopens] at hresult htexts
  rw [Damon.configure_switchTexts] at htexts
  exact ⟨hresult, htexts⟩

/-- A cycle switches DAMON on when it asks for it and can open the file. -/
theorem outcome_on {st : SysStep F} (h : st.Honest) (e : Engine F) :
    (st.step.outcome e).engine.damonOn = (e.damonOn || st.asks) := by
  have henabled : Damon.enabled st.start = false := Damon.enabled_of_switch h
  rw [outcome_damonOn, damonAfter]
  show (e.damonOn || (st.cfg.enableDamon && Damon.available st.start && !Damon.enabled st.start &&
    st.switched.1)) = _
  rw [henabled, (switched_spec h).1, asks]
  cases hopens : st.start.opens Damon.switch with
  | false => simp
  | true => simp [opens_available hopens]

theorem files_switchTexts {st : SysStep F} (h : st.Honest) (e : Engine F) :
    Damon.switchTexts (st.files e).written =
      if !e.damonOn && st.asks then [ascii "Y"] else [] := by
  have henabled : Damon.enabled st.start = false := Damon.enabled_of_switch h
  unfold files
  split
  · rename_i hinit
    rw [(switched_spec h).2, asks, hinit.1, hinit.2.1]
    rfl
  · rename_i hnot
    have hquiet : (!e.damonOn && st.asks) = false := by
      by_contra hasks
      simp only [Bool.not_eq_false, Bool.and_eq_true, Bool.not_eq_true', asks] at hasks
      exact hnot ⟨hasks.1, hasks.2.1, opens_available hasks.2.2, henabled⟩
    rw [hquiet]
    rfl

end SysStep

theorem writtenBy_on {e : Engine F} (hon : e.damonOn = true) (l : List (SysStep F)) :
    writtenBy e l = [] := by
  induction l generalizing e with
  | nil => rfl
  | cons st l ih =>
      have hnext : (st.step.outcome e).engine.damonOn = true := by
        rw [outcome_damonOn, damonAfter, hon, Bool.true_or]
      rw [writtenBy, ih hnext, List.append_nil, SysStep.files, if_neg (by simp [hon])]
      rfl

theorem switchTexts_append (l l' : List (String × Bytes)) :
    Damon.switchTexts (l ++ l') = Damon.switchTexts l ++ Damon.switchTexts l' := by
  simp [Damon.switchTexts]

theorem writtenBy_spec {e : Engine F} {l : List (SysStep F)} (h : ∀ st ∈ l, st.Honest) :
    (play e (l.map SysStep.step)).damonOn = (e.damonOn || l.any SysStep.asks) ∧
      Damon.switchTexts (writtenBy e l) = if !e.damonOn && l.any SysStep.asks then [ascii "Y"] else [] := by
  induction l generalizing e with
  | nil => simp [play, writtenBy, Damon.switchTexts]
  | cons st l ih =>
      have hst := h st List.mem_cons_self
      have hnext := SysStep.outcome_on hst e
      obtain ⟨hon, htexts⟩ := ih (e := (st.step.outcome e).engine) fun st' h' =>
        h st' (List.mem_cons_of_mem st h')
      rw [hnext] at hon htexts
      rw [List.any_cons]
      constructor
      · rw [← Bool.or_assoc]
        exact hon
      · rw [writtenBy, switchTexts_append, SysStep.files_switchTexts hst e, htexts]
        cases e.damonOn <;> cases st.asks <;> cases l.any SysStep.asks <;> rfl

/-- Over any cycles, whatever other programs do to the files in between: DAMON is on for
the engine exactly when a cycle asked for it and could open the switch, whether or not
the kernel took the text; the switch was written to once then, with `Y`, and never with
`N`. From then on nothing is written to the module and no process is touched. The minimum
score is taken to be positive and the weights to be finite. -/
theorem damon_switched_once [LawfulDouble F] {l l' : List (SysStep F)} (hhonest : ∀ st ∈ l, st.Honest)
    (hzero : ∀ st ∈ l', ZeroBelow st.cfg) :
    (play {} (l.map SysStep.step)).damonOn = l.any SysStep.asks ∧
      Damon.switchTexts (writtenBy {} l) = (if l.any SysStep.asks then [ascii "Y"] else []) ∧
      (l.any SysStep.asks = true → writtenBy (play {} (l.map SysStep.step)) l' = [] ∧
        ∀ x ∈ history (play {} (l.map SysStep.step)) (l'.map SysStep.step),
          ∀ ev ∈ (x.2.outcome x.1).events, ¬ ev.Touches) := by
  obtain ⟨hon, htexts⟩ := writtenBy_spec (e := ({} : Engine F)) hhonest
  refine ⟨hon, htexts, fun hasks => ?_⟩
  have hlater : (play {} (l.map SysStep.step)).damonOn = true := hon.trans hasks
  refine ⟨writtenBy_on hlater l', fun x hx => ?_⟩
  refine (history_nobody (fun st hst => ?_) (fun st _ => ?_) x hx).1
  · obtain ⟨st', hst', rfl⟩ := List.mem_map.mp hst
    exact hzero st' hst'
  · rw [damonAfter, hlater, Bool.true_or]

/-- A forced cycle on a kernel with one large idle process, which can be opened. -/
def busy (file : String → Option SysFile) : SysStep ℚ where
  cfg := {}
  kernel := { Answers.alone with
    sample := fun _ => ⟨100000, 0, 1, true⟩
    attempt := fun pid =>
      { Answers.alone.attempt pid with opened := true, before := 100000, after := 90000 } }
  call := .force
  file := file

/-- The switch is there, and the kernel does not take what is written to it. -/
def refusing (path : String) : Option SysFile :=
  if path = Damon.switch then some ⟨ascii "N\n", true, true, fun _ => none⟩ else none

/-- Without the module the second cycle opens the process. The third one takes the refused
switch for turned, and the two after it leave the process alone. -/
theorem damon_switched_once_refused :
    let before : List (SysStep ℚ) := [busy fun _ => none, busy fun _ => none, busy refusing]
    let after : List (SysStep ℚ) := [busy refusing, busy refusing]
    ((busy fun _ => none).step.outcome (play {} [(busy fun _ => none).step])).events.filterMap
        Event.opening = [(2, true)] ∧
      (((busy refusing).files {}).file Damon.switch).map SysFile.text = some (ascii "N\n") ∧
      (play {} (before.map SysStep.step)).damonOn = true ∧
      Damon.switchTexts (writtenBy {} before) = [ascii "Y"] ∧
      ∀ x ∈ history (play {} (before.map SysStep.step)) (after.map SysStep.step),
        ∀ ev ∈ (x.2.outcome x.1).events, ¬ ev.Touches := by
  intro before after
  have hhonest : ∀ st ∈ before, st.Honest := by
    intro st hst f hf
    simp only [before, List.mem_cons, List.not_mem_nil, or_false] at hst
    rcases hst with rfl | rfl | rfl
    · cases hf
    · cases hf
    · rw [← Option.some.inj hf]
      exact .inr rfl
  have hzero : ∀ st ∈ after, ZeroBelow st.cfg := by
    intro st hst
    rcases List.mem_pair.mp hst with rfl | rfl <;> exact zeroBelow_default
  obtain ⟨hon, htexts, hlater⟩ := damon_switched_once hhonest hzero
  have hasks : before.any SysStep.asks = true := by decide +kernel
  rw [hasks] at hon htexts
  exact ⟨by decide +kernel, by decide +kernel, hon, htexts, (hlater hasks).2⟩

/-! ## The start of the daemon -/

/-- What `run_daemon` does to the files before it makes the engine. -/
def startup (cfg : Config F) (fs : Sysfs) : Sysfs :=
  let fs := if ksmSupported fs && cfg.enableKsm then (ksmEnable fs true).2 else fs
  if Mglru.available fs then
    let fs := if Mglru.enabled fs then fs else (Mglru.enable fs true).2
    (Mglru.setMinTtlMs fs 2000).2
  else fs

/-- The texts of `ksm/run`. -/
def IsKsmRun (text : Bytes) : Prop := text = ascii "0\n" ∨ text = ascii "1\n" ∨ text = ascii "2\n"

/-- The texts of `lru_gen/enabled`. -/
def IsFeatures (text : Bytes) : Prop := ∃ ds, text = ascii "0x" ++ ds

/-- A file has a text of the kernel now, and after any that it takes. -/
def SysFile.Speaks (f : SysFile) (P : Bytes → Prop) : Prop :=
  P f.text ∧ ∀ v text, f.store v = some text → P text

/-- The files of KSM and of the LRU speak as the kernel does. -/
structure Sysfs.Speaks (fs : Sysfs) : Prop where
  ksm : ∀ f, fs.file ksmRun = some f → f.Speaks IsKsmRun
  lru : ∀ f, fs.file Mglru.features = some f → f.Speaks IsFeatures

/-- What a file is like, its text apart. -/
def SysFile.kind (f : SysFile) : Bool × Bool × (Bytes → Option Bytes) := (f.readable, f.writable, f.store)

/-- The same files, with other texts. -/
def Sysfs.Like (fs fs' : Sysfs) : Prop :=
  ∀ path, (fs'.file path).map SysFile.kind = (fs.file path).map SysFile.kind

theorem Sysfs.Like.trans {fs₁ fs₂ fs₃ : Sysfs} (h : fs₁.Like fs₂) (h' : fs₂.Like fs₃) : fs₁.Like fs₃ :=
  fun path => (h' path).trans (h path)

theorem wStr_like (fs : Sysfs) (path : String) (v : Bytes) : fs.Like (wStr fs path v).2 := by
  intro other
  by_cases hother : other = path
  · rw [hother]
    unfold wStr
    cases hf : fs.file path with
    | none => simp [hf]
    | some f => cases hw : f.writable <;> simp [hf, hw, SysFile.kind]
  · rw [wStr_file_of_ne fs hother]

theorem SysFile.Speaks.store {f : SysFile} {P : Bytes → Prop} (h : f.Speaks P) (v : Bytes) :
    SysFile.Speaks { f with text := (f.store v).getD f.text } P := by
  refine ⟨?_, h.2⟩
  cases hv : f.store v with
  | none => simpa [hv] using h.1
  | some text => simpa [hv] using h.2 v text hv

theorem wStr_speaks {fs : Sysfs} {path : String} {P : Bytes → Prop}
    (h : ∀ f, fs.file path = some f → f.Speaks P) (other : String) (v : Bytes) :
    ∀ f, (wStr fs other v).2.file path = some f → f.Speaks P := by
  intro f hf
  by_cases hother : path = other
  · subst hother
    unfold wStr at hf
    cases hold : fs.file path with
    | none => simp [hold] at hf
    | some f₀ =>
        have hspeaks := h f₀ hold
        cases hw : f₀.writable with
        | false =>
            simp [hold, hw] at hf
            exact hf ▸ hspeaks
        | true =>
            simp [hold, hw] at hf
            exact hf ▸ hspeaks.store v
  · rw [wStr_file_of_ne fs hother] at hf
    exact h f hf

theorem Sysfs.Speaks.wStr {fs : Sysfs} (h : fs.Speaks) (path : String) (v : Bytes) :
    (wStr fs path v).2.Speaks :=
  ⟨wStr_speaks h.ksm path v, wStr_speaks h.lru path v⟩

theorem Sysfs.Like.opens {fs fs' : Sysfs} (h : fs.Like fs') (path : String) :
    fs'.opens path = fs.opens path := by
  have hpath := h path
  unfold Sysfs.opens
  cases hf : fs.file path <;> cases hf' : fs'.file path <;> simp_all [SysFile.kind]

def Sysfs.reads (fs : Sysfs) (path : String) : Bool := (fs.file path).any (·.readable)

theorem Sysfs.Like.reads {fs fs' : Sysfs} (h : fs.Like fs') (path : String) :
    fs'.reads path = fs.reads path := by
  have hpath := h path
  unfold Sysfs.reads
  cases hf : fs.file path <;> cases hf' : fs'.file path <;> simp_all [SysFile.kind]

theorem Sysfs.Speaks.ksmSupported {fs : Sysfs} (h : fs.Speaks) : ksmSupported fs = fs.reads ksmRun := by
  unfold Memflux.Core.ksmSupported readSys Sysfs.reads
  cases hf : fs.file ksmRun with
  | none => rfl
  | some f =>
      have hsolid : (f.text.take 127).rdropWhile (fun b => b = 10 ∨ b = 32) ≠ [] := by
        obtain htext | htext | htext := (h.ksm f hf).1 <;> rw [htext] <;> decide +kernel
      show decide ((if f.readable then (f.text.take 127).rdropWhile _ else []) ≠ []) = f.readable
      cases f.readable with
      | false => rfl
      | true => exact decide_eq_true hsolid

theorem Sysfs.Speaks.enabled {fs : Sysfs} (h : fs.Speaks) : Mglru.enabled fs = false := by
  unfold Mglru.enabled rNum
  cases hf : fs.file Mglru.features with
  | none => rfl
  | some f =>
      obtain ⟨ds, hds⟩ := (h.lru f hf).1
      rw [Option.bind_some, hds, extract_hex]
      cases f.readable <;> rfl

def startupTexts (cfg : Config F) (fs : Sysfs) : List (String × Bytes) :=
  (if fs.reads ksmRun && cfg.enableKsm && fs.opens ksmRun then [(ksmRun, ascii "1")] else []) ++
    if fs.reads Mglru.features then
      (if fs.opens Mglru.features then [(Mglru.features, ascii "0x0007")] else []) ++
        if fs.opens Mglru.minTtl then [(Mglru.minTtl, ascii "2000")] else []
    else []

theorem Sysfs.Like.startupTexts {fs fs' : Sysfs} (h : fs.Like fs') (cfg : Config F) :
    startupTexts cfg fs' = startupTexts cfg fs := by
  unfold Memflux.Core.startupTexts
  simp only [h.opens, h.reads]

theorem startup_spec (cfg : Config F) {fs : Sysfs} (h : fs.Speaks) :
    (startup cfg fs).written = fs.written ++ startupTexts cfg fs ∧ fs.Like (startup cfg fs) ∧
      (startup cfg fs).Speaks := by
  have hksm : ∃ fs₁, fs₁ = (if ksmSupported fs && cfg.enableKsm then (ksmEnable fs true).2 else fs) ∧
      fs₁.written = fs.written ++
        (if fs.reads ksmRun && cfg.enableKsm && fs.opens ksmRun then [(ksmRun, ascii "1")] else []) ∧
      fs.Like fs₁ ∧ fs₁.Speaks := by
    refine ⟨_, rfl, ?_⟩
    rw [h.ksmSupported]
    cases fs.reads ksmRun && cfg.enableKsm with
    | false => exact ⟨(List.append_nil _).symm, fun _ => rfl, h⟩
    | true => exact ⟨wStr_written fs ksmRun _, wStr_like fs ksmRun _, h.wStr ksmRun _⟩
  obtain ⟨fs₁, hfs₁, hwritten₁, hlike₁, hspeaks₁⟩ := hksm
  unfold startup startupTexts
  dsimp only
  have havailable : Mglru.available fs₁ = fs₁.reads Mglru.features := rfl
  rw [← hfs₁, havailable, hspeaks₁.enabled, ← hlike₁.reads Mglru.features,
    ← hlike₁.opens Mglru.features, ← hlike₁.opens Mglru.minTtl]
  cases fs₁.reads Mglru.features with
  | false =>
      simp only [Bool.false_eq_true, if_false, List.append_nil]
      exact ⟨hwritten₁, hlike₁, hspeaks₁⟩
  | true =>
      simp only [Bool.false_eq_true, if_false, if_true]
      have hlike₂ := wStr_like fs₁ Mglru.features (ascii "0x0007")
      have hspeaks₂ := hspeaks₁.wStr Mglru.features (ascii "0x0007")
      refine ⟨?_, (hlike₁.trans hlike₂).trans (wStr_like _ _ _), hspeaks₂.wStr _ _⟩
      show (wStr (wStr fs₁ Mglru.features (ascii "0x0007")).2 Mglru.minTtl (digits 2000)).2.written = _
      rw [wStr_written, wStr_written, hlike₂.opens, hwritten₁, ← List.append_assoc, ← List.append_assoc]
      rfl

/-- However often the daemon is started on files that speak as the kernel does, and
whichever texts the kernel takes: each start writes the same texts, the features of the
LRU among them wherever they can be written, since it cannot read that they are on. -/
theorem starts_written (cfg : Config F) {fs : Sysfs} (h : fs.Speaks) (n : Nat) :
    ((startup cfg)^[n] fs).written = fs.written ++ (List.replicate n (startupTexts cfg fs)).flatten := by
  have hall : ∀ n, ((startup cfg)^[n] fs).written =
        fs.written ++ (List.replicate n (startupTexts cfg fs)).flatten ∧
      fs.Like ((startup cfg)^[n] fs) ∧ ((startup cfg)^[n] fs).Speaks := by
    intro n
    induction n with
    | zero => exact ⟨(List.append_nil _).symm, fun _ => rfl, h⟩
    | succ n ih =>
        obtain ⟨hwritten, hlike, hspeaks⟩ := ih
        obtain ⟨hnext, hlike', hspeaks'⟩ := startup_spec cfg hspeaks
        rw [Function.iterate_succ_apply']
        refine ⟨?_, hlike.trans hlike', hspeaks'⟩
        rw [hnext, hwritten, hlike.startupTexts, List.replicate_succ', List.flatten_concat, List.append_assoc]
  exact (hall n).1

/-- The files of a kernel with the LRU, its features off. -/
def plainLru : Sysfs where
  file := fun path =>
    if path = Mglru.features then
      some ⟨ascii "0x0000\n", true, true, fun v => if v = ascii "0x0007" then some (ascii "0x0007\n") else none⟩
    else none

/-- Two starts. -/
theorem starts_written_twice :
    ((startup ({} : Config ℚ))^[2] plainLru).written =
      [(Mglru.features, ascii "0x0007"), (Mglru.features, ascii "0x0007")] := by
  have hspeaks : plainLru.Speaks := by
    refine ⟨fun f hf => ?_, fun f hf => ?_⟩
    · cases hf
    · rw [← Option.some.inj hf]
      refine ⟨⟨ascii "0000\n", rfl⟩, fun v text htext => ?_⟩
      obtain ⟨-, hstored⟩ := Option.ite_none_right_eq_some.mp htext
      rw [← Option.some.inj hstored]
      exact ⟨ascii "0007\n", rfl⟩
  have htexts : startupTexts ({} : Config ℚ) plainLru = [(Mglru.features, ascii "0x0007")] := by
    decide +kernel
  rw [starts_written {} hspeaks, htexts]
  rfl

end

end Memflux.Core
