import Memflux.Core.ProcFiles

/-! # The control group of a process

`read_proc_stat` takes the path after the last colon of the first line of `cgroup`, as much
of the line as 511 bytes hold. It is the path of the unified hierarchy where that line is
the first, fits, and has no colon in its path, or where another line happens to end with
the same path.
-/

namespace Memflux.Core

open Double LineBuffer

theorem afterLast_eq_some_iff {b : UInt8} {s y : Bytes} :
    afterLast b s = some y ↔ b ∉ y ∧ (b :: y) <:+ s := by
  constructor
  · intro h
    unfold afterLast at h
    by_cases hb : b ∈ s
    · rw [if_pos hb] at h
      have hy := Option.some.inj h
      obtain ⟨y', x, hrev, hnot⟩ := List.eq_append_cons_of_mem (List.mem_reverse.mpr hb)
      have hs : s = x.reverse ++ b :: y'.reverse := by
        rw [← List.reverse_reverse s, hrev, List.reverse_append, List.reverse_cons,
          List.append_assoc, List.singleton_append]
      have hnot' : b ∉ y'.reverse := fun hmem => hnot (List.mem_reverse.mp hmem)
      have hafter := afterLast_append x.reverse hnot'
      unfold afterLast at hafter
      rw [← hs, if_pos hb, hy] at hafter
      rw [Option.some.inj hafter]
      exact ⟨hnot', x.reverse, hs.symm⟩
    · rw [if_neg hb] at h
      cases h
  · rintro ⟨hy, x, rfl⟩
    exact afterLast_append x hy

/-! ## The first line -/

theorem takeWhile_line_end {y : Bytes} (hy : (10 : UInt8) ∉ y) (k : Nat) :
    (y ++ [10].take k).takeWhile (· != 10) = y := by
  rw [List.takeWhile_append_of_pos]
  · cases k <;> simp
  · intro b hb
    apply bne_iff_ne.mpr
    rintro rfl
    exact hy hb

/-- The end of the line is left out whether or not the buffer has room for it. -/
theorem cgroupPath_line {line : Bytes} (hend : (10 : UInt8) ∉ line) (hzero : (0 : UInt8) ∉ line)
    (rest : Bytes) : cgroupPath (line ++ 10 :: rest) = afterLast 58 (line.take 511) := by
  have hpiece : cstr (fgets 10 511 (line ++ 10 :: rest)).1 =
      line.take 511 ++ [10].take (511 - line.length) := by
    have hclean : (0 : UInt8) ∉ line.take 511 ++ [10].take (511 - line.length) := by
      intro hmem
      rcases List.mem_append.mp hmem with hmem | hmem
      · exact hzero (List.mem_of_mem_take hmem)
      · exact absurd (List.mem_of_mem_take hmem) (by decide)
    rw [fgets_line hend, List.take_append, cstr_eq_self hclean]
  unfold cgroupPath
  rw [hpiece]
  cases hafter : afterLast 58 (line.take 511) with
  | none =>
      have hnot : (58 : UInt8) ∉ line.take 511 := by
        intro hmem
        unfold afterLast at hafter
        rw [if_pos hmem] at hafter
        cases hafter
      have hnot' : (58 : UInt8) ∉ line.take 511 ++ [10].take (511 - line.length) := by
        intro hmem
        rcases List.mem_append.mp hmem with hmem | hmem
        · exact hnot hmem
        · exact absurd (List.mem_of_mem_take hmem) (by decide)
      unfold afterLast
      rw [if_neg hnot']
      rfl
  | some y =>
      obtain ⟨hy, x, hx⟩ := afterLast_eq_some_iff.mp hafter
      have hy' : (58 : UInt8) ∉ y ++ [10].take (511 - line.length) := by
        intro hmem
        rcases List.mem_append.mp hmem with hmem | hmem
        · exact hy hmem
        · exact absurd (List.mem_of_mem_take hmem) (by decide)
      have hyend : (10 : UInt8) ∉ y := by
        intro hmem
        apply hend
        apply List.mem_of_mem_take (i := 511)
        rw [← hx]
        exact List.mem_append_right x (List.mem_cons_of_mem 58 hmem)
      rw [← hx, List.append_assoc, List.cons_append, afterLast_append x hy', Option.map_some,
        takeWhile_line_end hyend]

/-! ## The file -/

/-- A line `id:controllers:path`. -/
structure CgroupLine where
  id : Bytes
  controllers : Bytes
  path : Bytes
  digits : id.all isDigit = true
  names : (58 : UInt8) ∉ controllers ∧ (10 : UInt8) ∉ controllers ∧ (0 : UInt8) ∉ controllers
  plain : (10 : UInt8) ∉ path ∧ (0 : UInt8) ∉ path
  rooted : path.head? = some 47

namespace CgroupLine

def text (l : CgroupLine) : Bytes := l.id ++ 58 :: l.controllers ++ 58 :: l.path

/-- The line of the unified hierarchy. -/
def Unified (l : CgroupLine) : Prop := l.id = [48] ∧ l.controllers = []

theorem Unified.text_eq {l : CgroupLine} (h : l.Unified) : l.text = [48, 58] ++ 58 :: l.path := by
  unfold text
  rw [h.1, h.2]
  rfl

theorem path_ne_nil (l : CgroupLine) : l.path ≠ [] := by
  intro h
  have hroot := l.rooted
  rw [h] at hroot
  cases hroot

theorem text_plain (l : CgroupLine) : (10 : UInt8) ∉ l.text ∧ (0 : UInt8) ∉ l.text := by
  have hmem (b : UInt8) (hd : isDigit b = false) (hb : b ≠ 58) (hn : b ∉ l.controllers)
      (hp : b ∉ l.path) : b ∉ l.text := by
    intro hin
    unfold text at hin
    rw [List.append_assoc, List.mem_append, List.mem_append, List.mem_cons] at hin
    rcases hin with hid | (h | hctl) | hpath
    · exact Bool.false_ne_true (hd.symm.trans (List.all_eq_true.mp l.digits b hid))
    · exact hb h
    · exact hn hctl
    · exact hp ((List.mem_cons.mp hpath).resolve_left hb)
  constructor
  · exact hmem 10 rfl (by decide) l.names.2.1 l.plain.1
  · exact hmem 0 rfl (by decide) l.names.2.2 l.plain.2

end CgroupLine

/-- A `cgroup` file: lines in any number, one of them that of the unified hierarchy. -/
structure CgroupFile where
  before : List CgroupLine
  unified : CgroupLine
  after : List CgroupLine
  isUnified : unified.Unified
  others : ∀ l ∈ before ++ after, ¬ l.Unified

namespace CgroupFile

def text (f : CgroupFile) : Bytes :=
  (f.before ++ f.unified :: f.after).flatMap fun l => l.text ++ [10]

/-- The line that is read. -/
def first (f : CgroupFile) : CgroupLine := f.before.headD f.unified

theorem text_eq (f : CgroupFile) : ∃ rest, f.text = f.first.text ++ 10 :: rest := by
  unfold text first
  cases f.before with
  | nil =>
      apply Exists.intro (f.after.flatMap fun l => l.text ++ [10])
      simp
  | cons l before =>
      apply Exists.intro ((before ++ f.unified :: f.after).flatMap fun l => l.text ++ [10])
      simp

theorem readCgroup_text (f : CgroupFile) (s : ProcStat) :
    (readCgroup (some f.text) s).cgroup = (afterLast 58 (f.first.text.take 511)).getD s.cgroup := by
  obtain ⟨rest, htext⟩ := f.text_eq
  rw [readCgroup_keeps, Option.bind_some, htext,
    cgroupPath_line f.first.text_plain.1 f.first.text_plain.2]

/-- Where the line of the unified hierarchy comes first, it has to fit. -/
theorem unified_suffix_iff {l : CgroupLine} (h : l.Unified) (hcolon : (58 : UInt8) ∉ l.path) :
    (58 :: l.path) <:+ l.text.take 511 ↔ l.path.length ≤ 508 := by
  have htake : l.text.take 511 = [48, 58] ++ 58 :: l.path.take 508 := by
    rw [h.text_eq]
    rfl
  rw [htake]
  constructor
  · intro hsuffix
    have hread := afterLast_eq_some_iff.mpr ⟨hcolon, hsuffix⟩
    rw [afterLast_append _ fun hmem => hcolon (List.mem_of_mem_take hmem)] at hread
    have hlength := congrArg List.length (Option.some.inj hread)
    rw [List.length_take] at hlength
    omega
  · intro hfits
    rw [List.take_of_length_le hfits]
    exact List.suffix_append [48, 58] _

end CgroupFile

section

variable {F : Type} [Double F]

theorem scanEntry_cgroup {k : Answers F} {entry : Nat × ProcStat} {ps : ProcessStat F}
    (h : scanEntry k entry = some ps) : ps.cgroup = entry.2.cgroup := by
  unfold scanEntry at h
  split at h
  · cases h
  · cases h
    rfl

/-- The path that is stored, and that a scan hands on to `mode_for` and `weight_for`, is that
of the unified hierarchy if and only if it has no colon and the first line, as far as it is
read, ends with it. -/
theorem cgroup_read_iff (l : StatLine) (status : Option Bytes) (f : CgroupFile)
    (prev : Option Nat) :
    ((readProcStat { stat := some l.text, status, cgroup := some f.text } prev).1.cgroup =
        f.unified.path ∧
      ∀ (k : Answers F) (pid : Nat) (ps : ProcessStat F),
        scanEntry k (pid, (readProcStat
          { stat := some l.text, status, cgroup := some f.text } prev).1) = some ps →
        ps.cgroup = f.unified.path) ↔
      (58 : UInt8) ∉ f.unified.path ∧ (f.before = [] → f.unified.path.length ≤ 508) ∧
        ∀ first, f.before.head? = some first →
          (58 :: f.unified.path) <:+ first.text.take 511 := by
  have hstored : (readProcStat
      { stat := some l.text, status, cgroup := some f.text } prev).1.cgroup =
      (afterLast 58 (f.first.text.take 511)).getD [] := by
    rw [l.readProcStat_text]
    dsimp only
    rw [f.readCgroup_text, (readStatus_keeps status { ok := true }).2.2.2.1]
  have hpath : (afterLast 58 (f.first.text.take 511)).getD [] = f.unified.path ↔
      (58 : UInt8) ∉ f.unified.path ∧ (58 :: f.unified.path) <:+ f.first.text.take 511 := by
    rw [← afterLast_eq_some_iff]
    cases afterLast 58 (f.first.text.take 511) with
    | none => simp [f.unified.path_ne_nil.symm]
    | some y => simp
  have hfirst (hcolon : (58 : UInt8) ∉ f.unified.path) :
      (58 :: f.unified.path) <:+ f.first.text.take 511 ↔
        (f.before = [] → f.unified.path.length ≤ 508) ∧
          ∀ first, f.before.head? = some first →
            (58 :: f.unified.path) <:+ first.text.take 511 := by
    unfold CgroupFile.first
    cases f.before with
    | nil =>
        rw [List.headD_nil, CgroupFile.unified_suffix_iff f.isUnified hcolon]
        simp
    | cons first before => simp
  rw [hstored, hpath]
  constructor
  · rintro ⟨⟨hcolon, hsuffix⟩, -⟩
    exact ⟨hcolon, (hfirst hcolon).mp hsuffix⟩
  · rintro ⟨hcolon, hlines⟩
    have hsuffix := (hfirst hcolon).mpr hlines
    refine ⟨⟨hcolon, hsuffix⟩, fun k pid ps hscan => ?_⟩
    rw [scanEntry_cgroup hscan, hstored]
    exact hpath.mpr ⟨hcolon, hsuffix⟩

end

/-- On a hybrid hierarchy the first line is that of a controller. -/
theorem controller_read :
    ¬ ∀ (l : StatLine) (status : Option Bytes) (f : CgroupFile) (prev : Option Nat),
      (readProcStat { stat := some l.text, status, cgroup := some f.text } prev).1.cgroup =
        f.unified.path ∧
      ∀ (k : Answers Rat) (pid : Nat) (ps : ProcessStat Rat),
        scanEntry k (pid, (readProcStat
          { stat := some l.text, status, cgroup := some f.text } prev).1) = some ps →
        ps.cgroup = f.unified.path := by
  intro h
  let pids : CgroupLine :=
    { id := ascii "12"
      controllers := ascii "pids"
      path := ascii "/user"
      digits := by decide
      names := by decide
      plain := by decide
      rooted := by decide }
  let service : CgroupLine :=
    { id := ascii "0"
      controllers := []
      path := ascii "/db"
      digits := by decide
      names := by decide
      plain := by decide
      rooted := by decide }
  let f : CgroupFile :=
    { before := [pids]
      unified := service
      after := []
      isUnified := by
        unfold CgroupLine.Unified
        decide
      others := by
        unfold CgroupLine.Unified
        decide }
  let l : StatLine :=
    { pid := ascii "7"
      name := ascii "db"
      state := 83
      fields := List.replicate 23 (ascii "1")
      digits := by decide
      nonzero := by decide
      fits := by decide
      letter := by decide
      numbers := by decide
      enough := by decide }
  have hstored := (h l none f none).1
  rw [l.readProcStat_text] at hstored
  dsimp only at hstored
  rw [f.readCgroup_text] at hstored
  exact absurd hstored (by decide)

end Memflux.Core
