import Memflux.Core.Parser
import Memflux.Core.Scores
import Memflux.Lib.LineBuffer

/-! # The files of a process

`read_proc_stat` on the bytes of `/proc/<pid>/stat`, `status` and `cgroup`. The loop over
the fields of `stat` starts at the state letter, which `strtoll` cannot read: it leaves the
text where it is and gives 0, for this field and for all the others.
-/

namespace Memflux.Core

open Double LineBuffer

/-! ## Strings and numbers -/

/-- The bytes of a C string, those before the first zero. -/
def cstr (s : Bytes) : Bytes := s.takeWhile (· != 0)

/-- What follows the last `b`, found by `strrchr`. -/
def afterLast (b : UInt8) (s : Bytes) : Option Bytes :=
  if b ∈ s then some (s.rtakeWhile (· != b)) else none

/-- A cast to `uint64_t`. -/
def castU64 (z : Int) : Nat := (z % 2 ^ 64).toNat

/-- `strtoll` in base 10, with the text that follows the number. Where there is no number
it gives 0 and moves nowhere. -/
def strtoll (s : Bytes) : Int × Bytes :=
  match numeral s with
  | none => (0, s)
  | some (z, rest) => (max (-2 ^ 63) (min z (2 ^ 63 - 1)), rest)

/-- `sscanf` with `%llu`. -/
def scanU64 (s : Bytes) : Option Nat :=
  (numeral s).map fun (z, _) => if 2 ^ 64 ≤ z ∨ z ≤ -2 ^ 64 then 2 ^ 64 - 1 else castU64 z

/-! ## The reader -/

structure ProcFiles where
  stat : Option Bytes := none
  status : Option Bytes := none
  cgroup : Option Bytes := none

/-- The loop over the fields, with the slots that are left. -/
def scanNums : Nat → Bytes → List Int
  | 0, _ => []
  | slots + 1, s =>
      let p := s.dropWhile (· == 32)
      if p = [] then [] else (strtoll p).1 :: scanNums slots (strtoll p).2

/-- The numbers of `stat`, of which 4095 bytes are read, if a name ends in it. -/
def statNums (stat : Bytes) : Option (List Int) :=
  (afterLast 41 (cstr (stat.take 4095))).map (scanNums 64)

/-- One piece of `status`. -/
def statusLine (s : ProcStat) (piece : Bytes) : ProcStat :=
  let line := cstr piece
  if (ascii "VmRSS:").isPrefixOf line then
    { s with rssKb := (scanU64 (line.drop 6)).getD s.rssKb }
  else if (ascii "RssAnon:").isPrefixOf line then
    { s with anonRssKb := (scanU64 (line.drop 8)).getD s.anonRssKb }
  else if (ascii "RssFile:").isPrefixOf line then
    { s with fileRssKb := (scanU64 (line.drop 8)).getD s.fileRssKb }
  else if (ascii "VmSwap:").isPrefixOf line then
    { s with swapKb := (scanU64 (line.drop 7)).getD s.swapKb }
  else if (ascii "Name:").isPrefixOf line then
    let nm := (line.drop 5).dropWhile fun b => b == 32 || b == 9
    { s with comm := nm.takeWhile (· != 10) }
  else s

def readStatus (status : Option Bytes) (s : ProcStat) : ProcStat :=
  ((status.map (pieces 10 255)).getD []).foldl statusLine s

/-- The path on the first piece of `cgroup`. -/
def cgroupPath (text : Bytes) : Option Bytes :=
  (afterLast 58 (cstr (fgets 10 511 text).1)).map (List.takeWhile (· != 10))

def readCgroup (cgroup : Option Bytes) (s : ProcStat) : ProcStat :=
  match cgroup.bind cgroupPath with
  | none => s
  | some path => { s with cgroup := path }

/-- What is read of `stat` alone, and the fault count that is written back. -/
def baseStat (nums : List Int) (prev : Option Nat) : ProcStat × Option Nat :=
  let maj := castU64 (nums.getD 9 0)
  ({ minflt := castU64 (nums.getD 7 0)
     majflt := match prev with
       | some p => if p ≤ maj then maj - p else maj
       | none => maj
     vssKb := castU64 (nums.getD 20 0) / 1024
     rssKb := u64 (castU64 (nums.getD 21 0) * 4)
     ok := true },
    prev.map fun _ => maj)

/-- `read_proc_stat`, with the fault count behind `prev_majflt` if the pointer is given. -/
def readProcStat (files : ProcFiles) (prev : Option Nat) : ProcStat × Option Nat :=
  match files.stat.bind statNums with
  | none => ({}, prev)
  | some nums =>
      if nums.length < 24 then ({}, prev)
      else
        let (s, prev') := baseStat nums prev
        (readCgroup files.cgroup (readStatus files.status s), prev')

/-! ## Reading a string -/

theorem cstr_append {x : Bytes} (hx : (0 : UInt8) ∉ x) (y : Bytes) :
    cstr (x ++ y) = x ++ cstr y := by
  apply List.takeWhile_append_of_pos
  intro b hb
  apply bne_iff_ne.mpr
  rintro rfl
  exact hx hb

theorem cstr_eq_self {s : Bytes} (hs : (0 : UInt8) ∉ s) : cstr s = s := by
  have h := cstr_append hs []
  rwa [List.append_nil, show cstr [] = [] from rfl, List.append_nil] at h

theorem cstr_begins (s : Bytes) : cstr s <+: s := List.takeWhile_prefix _

theorem afterLast_append {b : UInt8} (x : Bytes) {y : Bytes} (hy : b ∉ y) :
    afterLast b (x ++ b :: y) = some y := by
  have hall : ∀ c ∈ y.reverse, (c != b) = true := by
    intro c hc
    apply bne_iff_ne.mpr
    rintro rfl
    exact hy (List.mem_reverse.mp hc)
  unfold afterLast
  rw [if_pos (List.mem_append_right x List.mem_cons_self), List.rtakeWhile,
    List.reverse_append, List.reverse_cons, List.append_assoc, List.singleton_append,
    List.takeWhile_append_of_pos hall, List.takeWhile_cons_of_neg (by simp), List.append_nil,
    List.reverse_reverse]

def isLetter (b : UInt8) : Bool := (65 ≤ b ∧ b ≤ 90) ∨ (97 ≤ b ∧ b ≤ 122)

theorem numeral_letter {c : UInt8} (hc : isLetter c = true) (s : Bytes) :
    numeral (c :: s) = none := by
  unfold isLetter at hc
  have hrange : (65 ≤ c ∧ c ≤ 90) ∨ (97 ≤ c ∧ c ≤ 122) := of_decide_eq_true hc
  rw [UInt8.le_iff_toNat_le, UInt8.le_iff_toNat_le, UInt8.le_iff_toNat_le,
    UInt8.le_iff_toNat_le] at hrange
  have hspace : isSpace c = false := by
    unfold isSpace
    apply decide_eq_false
    rw [UInt8.le_iff_toNat_le, UInt8.le_iff_toNat_le, ← UInt8.toNat_inj]
    simp at hrange ⊢
    omega
  have hdigit : isDigit c = false := by
    unfold isDigit
    apply decide_eq_false
    rw [UInt8.le_iff_toNat_le, UInt8.le_iff_toNat_le]
    simp at hrange ⊢
    omega
  have hsign : ¬ ((c :: s).head? = some 43 ∨ (c :: s).head? = some 45) := by
    rw [List.head?_cons, Option.some.injEq, Option.some.injEq, ← UInt8.toNat_inj,
      ← UInt8.toNat_inj]
    simp at hrange ⊢
    omega
  unfold numeral
  dsimp only
  rw [List.dropWhile_cons_of_neg (by rw [hspace]; exact Bool.false_ne_true), if_neg hsign,
    List.takeWhile_cons_of_neg (by rw [hdigit]; exact Bool.false_ne_true)]
  rfl

theorem scanNums_stuck {c : UInt8} {s : Bytes} (hc : c ≠ 32) (hs : numeral (c :: s) = none)
    (slots : Nat) : scanNums slots (c :: s) = List.replicate slots 0 := by
  have hblank : (c :: s).dropWhile (· == 32) = c :: s :=
    List.dropWhile_cons_of_neg (by simpa using hc)
  induction slots with
  | zero => rfl
  | succ slots ih =>
      unfold scanNums strtoll
      rw [hblank, if_neg (List.cons_ne_nil c s), hs]
      exact congrArg (0 :: ·) ih

/-! ## The line of `stat` -/

/-- The text of an integer. -/
def isNumber (t : Bytes) : Bool :=
  let ds := if t.head? = some 45 then t.tail else t
  ds ≠ [] ∧ ds.all isDigit

theorem isNumber_not_mem {t : Bytes} (ht : isNumber t = true) : (41 : UInt8) ∉ t := by
  unfold isNumber at ht
  have hdigits := (of_decide_eq_true ht).2
  rw [List.all_eq_true] at hdigits
  intro hmem
  have hclose : isDigit 41 = false := by decide
  by_cases hsign : t.head? = some 45
  · rw [if_pos hsign] at hdigits
    obtain ⟨rest, rfl⟩ := List.head?_eq_some_iff.mp hsign
    have hin := (List.mem_cons.mp hmem).resolve_left (by decide)
    exact Bool.false_ne_true (hclose.symm.trans (hdigits 41 hin))
  · rw [if_neg hsign] at hdigits
    exact Bool.false_ne_true (hclose.symm.trans (hdigits 41 hmem))

/-- A line of `/proc/<pid>/stat`: the process, its name, its state and the numbers that
follow. What is before the numbers fits into the buffer, which has room for many times the
64 bytes that the kernel writes of a name. -/
structure StatLine where
  pid : Bytes
  name : Bytes
  state : UInt8
  fields : List Bytes
  digits : pid.all isDigit = true
  nonzero : (0 : UInt8) ∉ name
  fits : pid.length + name.length ≤ 4090
  letter : isLetter state = true
  numbers : ∀ t ∈ fields, isNumber t = true
  enough : 23 ≤ fields.length

namespace StatLine

/-- What comes before the parenthesis that ends the name. -/
def front (l : StatLine) : Bytes := l.pid ++ 32 :: 40 :: l.name

/-- What comes after the state. -/
def back (l : StatLine) : Bytes := l.fields.flatMap (32 :: ·) ++ [10]

def text (l : StatLine) : Bytes := l.front ++ 41 :: 32 :: l.state :: l.back

/-- Field `n` of the line, from the fourth on, which is the first after the state. -/
def field (l : StatLine) (n : Nat) : Int :=
  ((numeral (l.fields.getD (n - 4) [])).map Prod.fst).getD 0

theorem front_nonzero (l : StatLine) : (0 : UInt8) ∉ l.front := by
  intro hmem
  rcases List.mem_append.mp hmem with hpid | hname
  · exact absurd (List.all_eq_true.mp l.digits 0 hpid) (by decide)
  · exact l.nonzero (by simpa using hname)

theorem back_not_mem (l : StatLine) : (41 : UInt8) ∉ l.back := by
  intro hmem
  rcases List.mem_append.mp hmem with hmem | hmem
  · obtain ⟨t, ht, hmem⟩ := List.mem_flatMap.mp hmem
    rcases List.mem_cons.mp hmem with h | h
    · exact absurd h (by decide)
    · exact isNumber_not_mem (l.numbers t ht) h
  · exact absurd hmem (by decide)

theorem state_ne (l : StatLine) {b : UInt8} (hb : isLetter b = false) : l.state ≠ b := by
  rintro rfl
  exact Bool.false_ne_true (hb.symm.trans l.letter)

theorem text_take (l : StatLine) :
    ∃ k, l.text.take 4095 = l.front ++ 41 :: 32 :: l.state :: l.back.take k := by
  have hfits := l.fits
  apply Exists.intro (4090 - (l.pid.length + l.name.length))
  have hroom : 4095 - l.front.length = 4090 - (l.pid.length + l.name.length) + 3 := by
    unfold front
    simp only [List.length_append, List.length_cons]
    omega
  unfold text
  rw [List.take_append, List.take_of_length_le (by omega), hroom]
  rfl

theorem statNums_text (l : StatLine) : statNums l.text = some (List.replicate 64 0) := by
  obtain ⟨k, htake⟩ := l.text_take
  have hcstr : cstr (41 :: 32 :: l.state :: l.back.take k) =
      41 :: 32 :: l.state :: cstr (l.back.take k) := by
    apply cstr_append (x := [41, 32, l.state])
    simpa using (l.state_ne (b := 0) rfl).symm
  have hclose : (41 : UInt8) ∉ 32 :: l.state :: cstr (l.back.take k) := by
    intro hmem
    rcases List.mem_cons.mp hmem with h | hmem
    · exact absurd h (by decide)
    rcases List.mem_cons.mp hmem with h | hmem
    · exact l.state_ne rfl h.symm
    · exact l.back_not_mem (List.mem_of_mem_take ((cstr_begins _).subset hmem))
  have hskip : scanNums 64 (32 :: l.state :: cstr (l.back.take k)) =
      scanNums 64 (l.state :: cstr (l.back.take k)) := by
    unfold scanNums
    rw [List.dropWhile_cons_of_pos (by decide)]
  unfold statNums
  rw [htake, cstr_append l.front_nonzero, hcstr, afterLast_append _ hclose, Option.map_some,
    hskip, scanNums_stuck (l.state_ne rfl) (numeral_letter l.letter _)]

/-- Whatever the line says, all that is taken from it is that the process is there. -/
theorem readProcStat_text (l : StatLine) (status cgroup : Option Bytes) (prev : Option Nat) :
    readProcStat { stat := some l.text, status, cgroup } prev =
      (readCgroup cgroup (readStatus status { ok := true }), prev.map fun _ => 0) := by
  have hbase : baseStat (List.replicate 64 0) prev = ({ ok := true }, prev.map fun _ => 0) := by
    cases prev with
    | none => rfl
    | some p => cases p <;> rfl
  unfold readProcStat
  rw [Option.bind_some, l.statNums_text]
  dsimp only
  rw [if_neg (by rw [List.length_replicate]; decide), hbase]

end StatLine

/-! ## What `status` and `cgroup` leave -/

theorem statusLine_keeps (s : ProcStat) (piece : Bytes) :
    (statusLine s piece).minflt = s.minflt ∧ (statusLine s piece).majflt = s.majflt ∧
      (statusLine s piece).vssKb = s.vssKb ∧ (statusLine s piece).cgroup = s.cgroup ∧
      (¬ ascii "VmRSS:" <+: piece → (statusLine s piece).rssKb = s.rssKb) := by
  unfold statusLine
  dsimp only
  split_ifs with hrss
  · refine ⟨rfl, rfl, rfl, rfl, fun hno => ?_⟩
    exact absurd ((List.isPrefixOf_iff_prefix.mp hrss).trans (cstr_begins piece)) hno
  all_goals exact ⟨rfl, rfl, rfl, rfl, fun _ => rfl⟩

theorem readStatus_keeps (status : Option Bytes) (s : ProcStat) :
    (readStatus status s).minflt = s.minflt ∧ (readStatus status s).majflt = s.majflt ∧
      (readStatus status s).vssKb = s.vssKb ∧ (readStatus status s).cgroup = s.cgroup ∧
      ((∀ piece ∈ (status.map (pieces 10 255)).getD [], ¬ ascii "VmRSS:" <+: piece) →
        (readStatus status s).rssKb = s.rssKb) := by
  unfold readStatus
  generalize (status.map (pieces 10 255)).getD [] = l
  induction l generalizing s with
  | nil => exact ⟨rfl, rfl, rfl, rfl, fun _ => rfl⟩
  | cons piece l ih =>
      obtain ⟨hmin, hmaj, hvss, hcgroup, hrss⟩ := ih (statusLine s piece)
      obtain ⟨hmin', hmaj', hvss', hcgroup', hrss'⟩ := statusLine_keeps s piece
      rw [List.foldl_cons]
      refine ⟨hmin.trans hmin', hmaj.trans hmaj', hvss.trans hvss', hcgroup.trans hcgroup',
        fun hno => ?_⟩
      have hrest := hrss fun p hp => hno p (List.mem_cons_of_mem piece hp)
      exact hrest.trans (hrss' (hno piece List.mem_cons_self))

theorem readCgroup_keeps (cgroup : Option Bytes) (s : ProcStat) :
    readCgroup cgroup s = { s with cgroup := (cgroup.bind cgroupPath).getD s.cgroup } := by
  unfold readCgroup
  cases cgroup.bind cgroupPath with
  | none => rfl
  | some path => rfl

/-- No line of `status` gives the resident set, and no line too long for the buffer has the
label of one in it. -/
def NoRss (status : Option Bytes) : Prop :=
  ∀ text, status = some text → ∀ line ∈ text.splitOn 10,
    ¬ ascii "VmRSS:" <+: line ∧ (255 ≤ line.length → ¬ ascii "VmRSS:" <:+: line)

theorem NoRss.pieces {status : Option Bytes} (h : NoRss status) {piece : Bytes}
    (hpiece : piece ∈ (status.map (pieces 10 255)).getD []) : ¬ ascii "VmRSS:" <+: piece := by
  intro hlabel
  cases status with
  | none => exact absurd hpiece List.not_mem_nil
  | some text =>
      obtain ⟨line, hline, hat⟩ := line_of_mem_pieces (by decide) hpiece
      obtain ⟨hstart, hlong⟩ := h text rfl line hline
      rcases hat with hat | ⟨hlength, hat⟩
      · rcases List.prefix_concat_iff.mp (hlabel.trans hat) with hend | hstart'
        · have hmem : (10 : UInt8) ∈ ascii "VmRSS:" := by
            rw [hend]
            exact List.mem_append_right line (List.mem_singleton.mpr rfl)
          exact absurd hmem (by decide)
        · exact hstart hstart'
      · rcases List.infix_concat_iff.mp (hlabel.isInfix.trans hat) with hend | hin
        · obtain ⟨before, hbefore⟩ := hend
          have hlast := congrArg List.getLast? hbefore
          rw [List.getLast?_append, List.getLast?_append] at hlast
          cases hlast
        · exact hlong hlength hin

/-! ## Counts and sizes -/

/-- A fault count, or its increase where it did not go down. -/
def increase (prev : Option Nat) (maj : Int) : Int :=
  match prev with
  | some p => if p ≤ maj then maj - p else maj
  | none => maj

structure StatLine.Read (l : StatLine) (status : Option Bytes) (prev : Option Nat)
    (s : ProcStat) : Prop where
  minflt : (s.minflt : Int) = l.field 10
  majflt : (s.majflt : Int) = increase prev (l.field 12)
  vssKb : (s.vssKb : Int) = l.field 23 / 1024
  rssKb : NoRss status → (s.rssKb : Int) = 4 * l.field 24

theorem increase_eq_zero_iff (prev : Option Nat) (maj : Int) :
    increase prev maj = 0 ↔ maj = 0 ∨ prev.map Int.ofNat = some maj := by
  cases prev with
  | none => simp [increase]
  | some p =>
      have hcast : (some p).map Int.ofNat = some maj ↔ (p : Int) = maj := by simp
      rw [hcast]
      unfold increase
      dsimp only
      by_cases hle : (p : Int) ≤ maj
      · rw [if_pos hle]
        omega
      · rw [if_neg hle]
        omega

/-- The counts and sizes of a line are read where they are 0 in what is stored of them, and
nowhere else: 0 is what `read_proc_stat` gives for each of them on every line. -/
theorem statLine_read_iff (l : StatLine) (status cgroup : Option Bytes) (prev : Option Nat) :
    l.Read status prev (readProcStat { stat := some l.text, status, cgroup } prev).1 ↔
      l.field 10 = 0 ∧ (l.field 12 = 0 ∨ prev.map Int.ofNat = some (l.field 12)) ∧
      (0 ≤ l.field 23 ∧ l.field 23 < 1024) ∧ (NoRss status → l.field 24 = 0) := by
  rw [l.readProcStat_text, readCgroup_keeps]
  obtain ⟨hmin, hmaj, hvss, -, hrss⟩ := readStatus_keeps status { ok := true }
  have hvss : (readStatus status { ok := true }).vssKb = 0 := hvss
  have hzero : NoRss status → (readStatus status { ok := true }).rssKb = 0 :=
    fun hno => hrss fun _ hp => hno.pieces hp
  rw [← increase_eq_zero_iff]
  constructor
  · intro h
    have hmin' := h.minflt
    have hmaj' := h.majflt
    have hvss' := h.vssKb
    dsimp only at hmin' hmaj' hvss'
    rw [hmin] at hmin'
    rw [hmaj] at hmaj'
    rw [hvss] at hvss'
    refine ⟨hmin'.symm, hmaj'.symm, by omega, fun hno => ?_⟩
    have hrss' := h.rssKb hno
    dsimp only at hrss'
    rw [hzero hno] at hrss'
    omega
  · rintro ⟨hmin', hmaj', hvss', hrss'⟩
    refine ⟨?_, ?_, ?_, fun hno => ?_⟩ <;> dsimp only
    · rw [hmin, hmin']
      rfl
    · rw [hmaj, hmaj']
      rfl
    · rw [hvss]
      omega
    · rw [hzero hno, hrss' hno]
      rfl

/-- A shell with 70 minor faults, 2 major ones, 8 MB of address space and 500 pages. -/
theorem faults_not_read :
    ¬ ∀ (l : StatLine) (status cgroup : Option Bytes) (prev : Option Nat),
      l.Read status prev (readProcStat { stat := some l.text, status, cgroup } prev).1 := by
  intro h
  let fields : List Bytes := (["1", "7", "7", "0", "-1", "4194304", "70", "0", "2", "0", "1", "1",
    "0", "0", "20", "0", "1", "0", "300", "8388608", "500", "-1", "1"] : List String).map ascii
  let l : StatLine :=
    { pid := ascii "7"
      name := ascii "sh"
      state := 83
      fields
      digits := by decide
      nonzero := by decide
      fits := by decide
      letter := by decide
      numbers := by decide
      enough := by decide }
  have hmin := (h l none none none).minflt
  rw [l.readProcStat_text] at hmin
  exact absurd hmin (by decide)

end Memflux.Core
