import Mathlib.Data.List.Basic
import Mathlib.Logic.Function.Basic
import Mathlib.Tactic.Common

/-!
# Language files

A language file has one string on each line. `ParseLanguageFile` of `UI.c` reads it line by line into a table, `FormatLanguageString` replaces the escape characters of a line, and `LoadLanguageStrings` fills the tables of the messages and of the labels, whose sizes depend on the program. `mbtowc` is the one of the C library, and which allocations succeed is decided by the system.
-/

namespace HddChecker.Ui

abbrev ENOMEM : Int := 12

/-- `mbtowc`: the length of the first character of a string in at most so many bytes, and the character. -/
abbrev Mbtowc := List UInt8 → Nat → Int × Nat

/-- What the library promises of `mbtowc`: a character lies within the bytes, and no zero byte is part of one. -/
structure Mbtowc.Multibyte (mbtowc : Mbtowc) : Prop where
  le : ∀ (s : List UInt8) (n : Nat), (mbtowc s n).1 ≤ n
  nonzero : ∀ (s : List UInt8) (n : Nat), ∀ b ∈ s.take (mbtowc s n).1.toNat, b ≠ 0

/-- The loop of `FormatLanguageString`: what is written, and `ActualLength`. -/
def formatLoop (mbtowc : Mbtowc) : Nat → List UInt8 → Nat → Int × Nat → List UInt8 × Nat
  | 0, _, _, _ => ([], 0)
  | fuel + 1, input, len, (CharLen1, wchar1) =>
    if 0 < CharLen1 ∧ wchar1 ≠ 0 then
      let n := CharLen1.toNat
      let (CharLen2, wchar2) := mbtowc (input.drop n) (len - n)
      if 0 < CharLen2 ∧ wchar1 = '\\'.toNat ∧ wchar2 ≠ 0 then
        let input := input.drop (n + CharLen2.toNat)
        let len := len - (n + CharLen2.toNat)
        let (out, length) := formatLoop mbtowc fuel input len (mbtowc input len)
        if wchar2 = 'n'.toNat then (10 :: out, length + 1) else (out, length)
      else
        let (out, length) := formatLoop mbtowc fuel (input.drop n) (len - n) (CharLen2, wchar2)
        (input.take n ++ out, length + n)
    else ([], 0)

/-- `FormatLanguageString`: the bytes that are written to the output, and the result. -/
def FormatLanguageString (mbtowc : Mbtowc) (input : List UInt8) (len : Nat) : List UInt8 × Nat :=
  let (out, ActualLength) := formatLoop mbtowc (len + 1) input len (mbtowc input len)
  (out ++ [0], ActualLength + 1)

/-- `fgets` with room for so many bytes besides the terminator: the line, and what remains of the file. -/
def fgets : Nat → List UInt8 → List UInt8 × List UInt8
  | 0, file => ([], file)
  | _ + 1, [] => ([], [])
  | n + 1, c :: file =>
    if c = 10 then ([c], file)
    else
      let (line, file) := fgets n file
      (c :: line, file)

/-- What `fgets` returns for the `line` of 512 bytes, until it returns `NULL`. -/
def fileLines : Nat → List UInt8 → List (List UInt8)
  | 0, _ => []
  | fuel + 1, file =>
    if file = [] then []
    else
      let (line, file) := fgets 511 file
      line :: fileLines fuel file

/-- The lines behind the byte order mark, if there is one. -/
def languageLines (file : List UInt8) : List (List UInt8) :=
  let file := if file.take 3 = [0xEF, 0xBB, 0xBF] then file.drop 3 else file
  fileLines file.length file

/-- The string in `line`, without the newline character. -/
def lineString (line : List UInt8) : List UInt8 :=
  let string := line.takeWhile (· ≠ 0)
  if string.getLast? = some 10 then string.dropLast else string

/-- Which allocations succeed, line by line. -/
structure Alloc where
  malloc : Nat → Bool
  realloc : Nat → Bool

/-- A table of strings, as far as memory goes. -/
abbrev StringTable := Nat → Option (List UInt8)

/-- The loop of `ParseLanguageFile` from line `LinesLoaded` on: `result`, `LinesLoaded`, the table, and the entries written. -/
def parseLoop (mbtowc : Mbtowc) (alloc : Alloc) : List (List UInt8) → Nat → StringTable → Int × Nat × StringTable × List Nat
  | [], LinesLoaded, array => (0, LinesLoaded, array, [])
  | line :: lines, LinesLoaded, array =>
    if alloc.malloc LinesLoaded then
      let string := lineString line
      let (out, _) := FormatLanguageString mbtowc (string ++ [0]) (string.length + 1)
      let array := Function.update array LinesLoaded (if alloc.realloc LinesLoaded then some out else none)
      let (result, loaded, array, writes) := parseLoop mbtowc alloc lines (LinesLoaded + 1) array
      (result, loaded, array, LinesLoaded :: writes)
    else (- ENOMEM, LinesLoaded, Function.update array LinesLoaded none, [LinesLoaded])

/-- `ParseLanguageFile`: the result, the table, and the entries written. -/
def ParseLanguageFile (mbtowc : Mbtowc) (alloc : Alloc) (array : StringTable) (file : List UInt8) (ExpectedNumLines : Nat) :
    Int × StringTable × List Nat :=
  let (result, LinesLoaded, array, writes) := parseLoop mbtowc alloc (languageLines file) 0 array
  if result = 0 then if LinesLoaded ≠ ExpectedNumLines then (-1, array, writes) else (0, array, writes)
  else (result, array, writes)

/-- The result of `fopen`: the contents of the file, or `errno`. -/
abbrev Fopen := Except {errno : Int // 0 < errno} (List UInt8)

/-- The two tables, and the entries of each that were written. -/
structure Tables where
  LangStringTable : StringTable
  LangLblStringTable : StringTable
  strings : List Nat
  labels : List Nat

def UnloadLanguage (msgCount lblCount : Nat) (t : Tables) : Tables :=
  { t with
    LangStringTable := fun i => if i < msgCount then none else t.LangStringTable i
    LangLblStringTable := fun i => if i < lblCount then none else t.LangLblStringTable i }

/-- `LoadLanguageStrings` with the two files of a language. -/
def LoadLanguageStrings (mbtowc : Mbtowc) (msgCount lblCount : Nat) (strings labels : Fopen) (allocStrings allocLabels : Alloc) :
    Int × Tables :=
  let (result, tables) : Int × Tables :=
    match strings with
    | .ok file =>
      let (result, array, writes) := ParseLanguageFile mbtowc allocStrings (fun _ => none) file msgCount
      if result = 0 then
        match labels with
        | .ok file =>
          let (result, array', writes') := ParseLanguageFile mbtowc allocLabels (fun _ => none) file lblCount
          (result, ⟨array, array', writes, writes'⟩)
        | .error errno => (- errno.1, ⟨array, fun _ => none, writes, []⟩)
      else (result, ⟨array, fun _ => none, writes, []⟩)
    | .error errno => (- errno.1, ⟨fun _ => none, fun _ => none, [], []⟩)
  (result, if result ≠ 0 then UnloadLanguage msgCount lblCount tables else tables)

/-! ### Formatting a string -/

variable {mbtowc : Mbtowc} {s t : List UInt8} {fuel : Nat}

theorem Mbtowc.Multibyte.le_length (h : mbtowc.Multibyte) (t : List UInt8) :
    (mbtowc (t ++ [0]) (t.length + 1)).1.toNat ≤ t.length := by
  have hle := h.le (t ++ [0]) (t.length + 1)
  by_contra hnot
  have heq : (mbtowc (t ++ [0]) (t.length + 1)).1.toNat = (t ++ [0]).length := by
    rw [List.length_append, List.length_singleton]
    omega
  refine h.nonzero (t ++ [0]) (t.length + 1) 0 ?_ rfl
  rw [heq, List.take_length]
  exact List.mem_append_right _ (List.mem_singleton_self _)

theorem drop_string {n : Nat} (h : n ≤ t.length) :
    (t ++ [(0 : UInt8)]).drop n = t.drop n ++ [0] ∧ t.length + 1 - n = (t.drop n).length + 1 := by
  refine ⟨List.drop_append_of_le_length h, ?_⟩
  rw [List.length_drop]
  omega

/-- What is written is not longer than what is read, and `ActualLength` is its length. -/
private theorem formatLoop_length (h : mbtowc.Multibyte) (fuel : Nat) (t : List UInt8) :
    (formatLoop mbtowc fuel (t ++ [0]) (t.length + 1) (mbtowc (t ++ [0]) (t.length + 1))).1.length =
      (formatLoop mbtowc fuel (t ++ [0]) (t.length + 1) (mbtowc (t ++ [0]) (t.length + 1))).2 ∧
    (formatLoop mbtowc fuel (t ++ [0]) (t.length + 1) (mbtowc (t ++ [0]) (t.length + 1))).2 ≤ t.length := by
  induction fuel generalizing t with
  | zero => exact ⟨rfl, Nat.zero_le _⟩
  | succ fuel ih =>
    have hfirst := h.le_length t
    generalize mbtowc (t ++ [0]) (t.length + 1) = char₁ at hfirst ⊢
    obtain ⟨c₁, w₁⟩ := char₁
    rw [formatLoop]
    split
    · obtain ⟨hdrop, hlen⟩ := drop_string hfirst
      have hrest : (t.drop c₁.toNat).length = t.length - c₁.toNat := List.length_drop
      have hsecond := h.le_length (t.drop c₁.toNat)
      have ihfirst := ih (t.drop c₁.toNat)
      simp only [hdrop, hlen]
      generalize mbtowc (t.drop c₁.toNat ++ [0]) ((t.drop c₁.toNat).length + 1) = char₂ at hsecond ihfirst ⊢
      obtain ⟨c₂, w₂⟩ := char₂
      simp only
      split
      · -- Both characters are read, and at most one byte is written.
        rename_i hescape
        have hle : c₁.toNat + c₂.toNat ≤ t.length := by omega
        obtain ⟨hdrop', hlen'⟩ := drop_string hle
        have hrest' : (t.drop (c₁.toNat + c₂.toNat)).length = t.length - (c₁.toNat + c₂.toNat) := List.length_drop
        obtain ⟨hlength, hbound⟩ := ih (t.drop (c₁.toNat + c₂.toNat))
        simp only [hdrop', hlen']
        split
        · exact ⟨congrArg (· + 1) hlength, by omega⟩
        · exact ⟨hlength, by omega⟩
      · obtain ⟨hlength, hbound⟩ := ihfirst
        refine ⟨?_, by simp only; omega⟩
        rw [List.length_append, hlength, List.length_take, List.length_append, List.length_singleton,
          Nat.min_eq_left (by omega), Nat.add_comm]
    · exact ⟨rfl, Nat.zero_le _⟩

private theorem FormatLanguageString_length (h : mbtowc.Multibyte) (t : List UInt8) :
    (FormatLanguageString mbtowc (t ++ [0]) (t.length + 1)).1.length ≤ t.length + 1 ∧
    (FormatLanguageString mbtowc (t ++ [0]) (t.length + 1)).2 =
      (FormatLanguageString mbtowc (t ++ [0]) (t.length + 1)).1.length := by
  obtain ⟨hlength, hbound⟩ := formatLoop_length h (t.length + 1 + 1) t
  unfold FormatLanguageString
  simp only [List.length_append, List.length_singleton]
  omega

/-! ### Parsing a file -/

variable {alloc : Alloc} {lines : List (List UInt8)} {i n : Nat} {array : StringTable}

/-- The line is reached: all allocations before it succeed. -/
def Reached (alloc : Alloc) (lines : List (List UInt8)) (i : Nat) : Prop :=
  i < lines.length ∧ ∀ j < i, alloc.malloc j = true

/-- All lines find memory for their strings. -/
def Allocated (alloc : Alloc) (lines : List (List UInt8)) : Prop := ∀ i < lines.length, alloc.malloc i = true

theorem ENOMEM_ne : ¬ - ENOMEM = 0 := by decide

theorem parseLoop_writes (mbtowc : Mbtowc) (alloc : Alloc) (lines : List (List UInt8)) (k : Nat) (array : StringTable)
    (i : Nat) : i ∈ (parseLoop mbtowc alloc lines k array).2.2.2 ↔
      k ≤ i ∧ i < k + lines.length ∧ ∀ j, k ≤ j → j < i → alloc.malloc j = true := by
  induction lines generalizing k array with
  | nil =>
    simp only [parseLoop, List.not_mem_nil, List.length_nil, Nat.add_zero, false_iff]
    omega
  | cons line lines ih =>
    rw [parseLoop]
    split
    · rename_i hmalloc
      simp only [List.mem_cons, ih, List.length_cons]
      constructor
      · rintro (rfl | ⟨hle, hlt, hall⟩)
        · exact ⟨Nat.le_refl _, by omega, fun j hj hj' => by omega⟩
        · refine ⟨by omega, by omega, fun j hj hj' => ?_⟩
          rcases Nat.eq_or_lt_of_le hj with rfl | hj
          · exact hmalloc
          · exact hall j hj hj'
      · intro ⟨hle, hlt, hall⟩
        exact (Nat.eq_or_lt_of_le hle).imp Eq.symm fun hle' => ⟨hle', by omega, fun j hj => hall j (by omega)⟩
    · rename_i hmalloc
      simp only [List.mem_singleton, List.length_cons]
      constructor
      · rintro rfl
        exact ⟨Nat.le_refl _, by omega, fun j hj hj' => by omega⟩
      · intro ⟨hle, _, hall⟩
        by_contra hne
        exact hmalloc (hall k (Nat.le_refl k) (by omega))

private theorem parseLoop_result (mbtowc : Mbtowc) (alloc : Alloc) (lines : List (List UInt8)) (k : Nat) (array : StringTable) :
    (parseLoop mbtowc alloc lines k array).1 = 0 ↔ ∀ i, k ≤ i → i < k + lines.length → alloc.malloc i = true := by
  induction lines generalizing k array with
  | nil =>
    simp only [parseLoop, List.length_nil, Nat.add_zero, true_iff]
    omega
  | cons line lines ih =>
    rw [parseLoop, List.length_cons]
    split
    · rename_i hmalloc
      refine (ih (k + 1) _).trans ⟨fun hall i hle hlt => ?_, fun hall i hle hlt => hall i (by omega) (by omega)⟩
      rcases Nat.eq_or_lt_of_le hle with rfl | hle
      · exact hmalloc
      · exact hall i hle (by omega)
    · rename_i hmalloc
      exact ⟨fun h => absurd h ENOMEM_ne, fun hall => absurd (hall k (Nat.le_refl k) (by omega)) hmalloc⟩

private theorem parseLoop_loaded (mbtowc : Mbtowc) (alloc : Alloc) (lines : List (List UInt8)) (k : Nat) (array : StringTable)
    (h : (parseLoop mbtowc alloc lines k array).1 = 0) :
    (parseLoop mbtowc alloc lines k array).2.1 = k + lines.length := by
  induction lines generalizing k array with
  | nil => rfl
  | cons line lines ih =>
    rw [parseLoop] at h ⊢
    split at h
    · rename_i hmalloc
      rw [if_pos hmalloc, List.length_cons]
      exact (ih (k + 1) _ h).trans (by omega)
    · exact absurd h ENOMEM_ne

/-- An entry that is written has a string if there was memory for it, also in the end; the others stay. -/
private theorem parseLoop_array (mbtowc : Mbtowc) (alloc : Alloc) (lines : List (List UInt8)) (k : Nat) (array : StringTable)
    (i : Nat) : ((parseLoop mbtowc alloc lines k array).2.2.1 i).isSome = true ↔
      if i ∈ (parseLoop mbtowc alloc lines k array).2.2.2 then alloc.malloc i = true ∧ alloc.realloc i = true
      else (array i).isSome = true := by
  induction lines generalizing k array with
  | nil => simp [parseLoop]
  | cons line lines ih =>
    rw [parseLoop]
    split
    · rename_i hmalloc
      have hk : k ∉ (parseLoop mbtowc alloc lines (k + 1) (Function.update array k (if alloc.realloc k then
          some (FormatLanguageString mbtowc (lineString line ++ [0]) ((lineString line).length + 1)).1 else none))).2.2.2 := by
        rw [parseLoop_writes]
        omega
      apply (ih (k + 1) _).trans
      by_cases hi : i = k
      · subst hi
        rw [if_neg hk, if_pos List.mem_cons_self, Function.update_self]
        cases hrealloc : alloc.realloc i with
        | false => simp
        | true => simp [hmalloc]
      · rw [Function.update_of_ne hi]
        simp only [List.mem_cons, hi, false_or]
    · rename_i hmalloc
      simp only [List.mem_singleton]
      by_cases hi : i = k
      · subst hi
        rw [if_pos rfl, Function.update_self]
        simp [hmalloc]
      · rw [if_neg hi, Function.update_of_ne hi]

/-- The string of every line finds memory, also in the end. -/
def Kept (alloc : Alloc) (lines : List (List UInt8)) : Prop := ∀ i < lines.length, alloc.realloc i = true

private theorem ParseLanguageFile_writes (mbtowc : Mbtowc) (alloc : Alloc) (array : StringTable) (file : List UInt8) (expected i : Nat) :
    i ∈ (ParseLanguageFile mbtowc alloc array file expected).2.2 ↔ Reached alloc (languageLines file) i := by
  have hwrites : (ParseLanguageFile mbtowc alloc array file expected).2.2 =
      (parseLoop mbtowc alloc (languageLines file) 0 array).2.2.2 := by
    unfold ParseLanguageFile
    simp only
    split
    · split
      · rfl
      · rfl
    · rfl
  rw [hwrites, parseLoop_writes, Reached, Nat.zero_add]
  exact ⟨fun h => ⟨h.2.1, fun j => h.2.2 j (Nat.zero_le _)⟩, fun h => ⟨Nat.zero_le _, h.1, fun j _ => h.2 j⟩⟩

/-- What `ParseLanguageFile` does to an empty table. -/
theorem ParseLanguageFile_spec (mbtowc : Mbtowc) (alloc : Alloc) (file : List UInt8) (expected : Nat) :
    (∀ i, i ∈ (ParseLanguageFile mbtowc alloc (fun _ => none) file expected).2.2 ↔ Reached alloc (languageLines file) i) ∧
    ((ParseLanguageFile mbtowc alloc (fun _ => none) file expected).1 = 0 ↔
      Allocated alloc (languageLines file) ∧ (languageLines file).length = expected) ∧
    ∀ i, ((ParseLanguageFile mbtowc alloc (fun _ => none) file expected).2.1 i).isSome = true ↔
      Reached alloc (languageLines file) i ∧ alloc.malloc i = true ∧ alloc.realloc i = true := by
  have hwrites := parseLoop_writes mbtowc alloc (languageLines file) 0 fun _ => none
  have hzero := parseLoop_result mbtowc alloc (languageLines file) 0 fun _ => none
  have hloaded := parseLoop_loaded mbtowc alloc (languageLines file) 0 fun _ => none
  have harray := parseLoop_array mbtowc alloc (languageLines file) 0 fun _ => none
  have hreached : ∀ i, i ∈ (parseLoop mbtowc alloc (languageLines file) 0 fun _ => none).2.2.2 ↔
      Reached alloc (languageLines file) i := by
    intro i
    rw [hwrites, Reached, Nat.zero_add]
    exact ⟨fun h => ⟨h.2.1, fun j => h.2.2 j (Nat.zero_le _)⟩, fun h => ⟨Nat.zero_le _, h.1, fun j _ => h.2 j⟩⟩
  have hall : (parseLoop mbtowc alloc (languageLines file) 0 fun _ => none).1 = 0 ↔
      Allocated alloc (languageLines file) := by
    rw [hzero, Allocated, Nat.zero_add]
    exact ⟨fun h i => h i (Nat.zero_le _), fun h i _ => h i⟩
  have hsome : ∀ i, ((parseLoop mbtowc alloc (languageLines file) 0 fun _ => none).2.2.1 i).isSome = true ↔
      Reached alloc (languageLines file) i ∧ alloc.malloc i = true ∧ alloc.realloc i = true := by
    intro i
    rw [harray]
    by_cases h : Reached alloc (languageLines file) i
    · rw [if_pos ((hreached i).mpr h), and_iff_right h]
    · rw [if_neg (mt (hreached i).mp h)]
      exact ⟨nofun, fun h' => absurd h'.1 h⟩
  unfold ParseLanguageFile
  by_cases hresult : (parseLoop mbtowc alloc (languageLines file) 0 fun _ => none).1 = 0
  · rw [← hall, and_iff_right hresult]
    have hcount := hloaded hresult
    rw [Nat.zero_add] at hcount
    simp only [hresult, if_true, hcount]
    split
    · rename_i hne
      exact ⟨hreached, iff_of_false (by simp) hne, hsome⟩
    · rename_i heq
      exact ⟨hreached, iff_of_true rfl (not_not.mp heq), hsome⟩
  · simp only [hresult, if_false]
    exact ⟨hreached, iff_of_false not_false fun h => hresult (hall.mpr h.1), hsome⟩

/-! ### Loading a language -/

/-- The file has no line too many for its table, or memory runs out before it. -/
def InBounds (alloc : Alloc) (file : List UInt8) (expected : Nat) : Prop :=
  ∀ i, Reached alloc (languageLines file) i → i < expected

def Complete (alloc : Alloc) (file : List UInt8) (expected : Nat) : Prop :=
  Allocated alloc (languageLines file) ∧ (languageLines file).length = expected

/-- The table has so many strings. -/
def Full (array : StringTable) (count : Nat) : Prop := ∀ i, (array i).isSome = true ↔ i < count

/-- What is promised of `LoadLanguageStrings`. -/
structure Safe (msgCount lblCount : Nat) (r : Int × Tables) : Prop where
  strings : ∀ i ∈ r.2.strings, i < msgCount
  labels : ∀ i ∈ r.2.labels, i < lblCount
  loaded : r.1 = 0 → Full r.2.LangStringTable msgCount ∧ Full r.2.LangLblStringTable lblCount
  unloaded : r.1 ≠ 0 → ∀ i, r.2.LangStringTable i = none ∧ r.2.LangLblStringTable i = none

/-- The files have no lines too many, and where both are loaded completely no string is lost when its memory is cut to size. -/
def Manageable (msgCount lblCount : Nat) (strings labels : Fopen) (allocStrings allocLabels : Alloc) : Prop :=
  ∀ file, strings = .ok file → InBounds allocStrings file msgCount ∧
    (Complete allocStrings file msgCount → ∀ file', labels = .ok file' → InBounds allocLabels file' lblCount ∧
      (Complete allocLabels file' lblCount →
        Kept allocStrings (languageLines file) ∧ Kept allocLabels (languageLines file')))

variable {strings labels : Fopen} {allocStrings allocLabels : Alloc} {msgCount lblCount : Nat}

theorem full_iff (mbtowc : Mbtowc) (alloc : Alloc) (file : List UInt8) (expected : Nat)
    (hcomplete : Complete alloc file expected) :
    Full (ParseLanguageFile mbtowc alloc (fun _ => none) file expected).2.1 expected ↔ Kept alloc (languageLines file) := by
  obtain ⟨-, -, hsome⟩ := ParseLanguageFile_spec mbtowc alloc file expected
  obtain ⟨hall, rfl⟩ := hcomplete
  have hreached : ∀ i, Reached alloc (languageLines file) i ↔ i < (languageLines file).length :=
    fun i => ⟨And.left, fun hi => ⟨hi, fun j hj => hall j (Nat.lt_trans hj hi)⟩⟩
  constructor
  · intro hfull i hi
    exact ((hsome i).mp ((hfull i).mpr hi)).2.2
  · intro hkept i
    rw [hsome, hreached]
    exact ⟨And.left, fun hi => ⟨hi, hall i hi, hkept i hi⟩⟩

theorem unload_none (mbtowc : Mbtowc) {alloc : Alloc} {file : List UInt8} {expected : Nat}
    (hbounds : InBounds alloc file expected) (i : Nat) :
    (if i < expected then none else (ParseLanguageFile mbtowc alloc (fun _ => none) file expected).2.1 i) = none := by
  split
  · rfl
  · rename_i hi
    rw [← Option.not_isSome_iff_eq_none, (ParseLanguageFile_spec mbtowc alloc file expected).2.2]
    exact fun h => hi (hbounds i h.1)

private theorem load_closed (mbtowc : Mbtowc) (errno : {errno : Int // 0 < errno}) (labels : Fopen) :
    LoadLanguageStrings mbtowc msgCount lblCount (.error errno) labels allocStrings allocLabels =
      (- errno.1, UnloadLanguage msgCount lblCount ⟨fun _ => none, fun _ => none, [], []⟩) := by
  have hne : - errno.1 ≠ 0 := by
    have := errno.2
    omega
  exact Prod.ext rfl (if_pos hne)

private theorem load_strings {file : List UInt8} (labels : Fopen)
    (h : (ParseLanguageFile mbtowc allocStrings (fun _ => none) file msgCount).1 ≠ 0) :
    LoadLanguageStrings mbtowc msgCount lblCount (.ok file) labels allocStrings allocLabels =
      ((ParseLanguageFile mbtowc allocStrings (fun _ => none) file msgCount).1, UnloadLanguage msgCount lblCount
        ⟨(ParseLanguageFile mbtowc allocStrings (fun _ => none) file msgCount).2.1, fun _ => none,
          (ParseLanguageFile mbtowc allocStrings (fun _ => none) file msgCount).2.2, []⟩) := by
  unfold LoadLanguageStrings
  simp only [h, if_false, ne_eq, not_false_eq_true, if_true]

private theorem load_labels_closed {file : List UInt8} (errno : {errno : Int // 0 < errno})
    (h : (ParseLanguageFile mbtowc allocStrings (fun _ => none) file msgCount).1 = 0) :
    LoadLanguageStrings mbtowc msgCount lblCount (.ok file) (.error errno) allocStrings allocLabels =
      (- errno.1, UnloadLanguage msgCount lblCount
        ⟨(ParseLanguageFile mbtowc allocStrings (fun _ => none) file msgCount).2.1, fun _ => none,
          (ParseLanguageFile mbtowc allocStrings (fun _ => none) file msgCount).2.2, []⟩) := by
  have hne : - errno.1 ≠ 0 := by
    have := errno.2
    omega
  unfold LoadLanguageStrings
  simp only [h, if_true, hne, ne_eq, not_false_eq_true]

private theorem load_labels {file file' : List UInt8}
    (h : (ParseLanguageFile mbtowc allocStrings (fun _ => none) file msgCount).1 = 0) :
    LoadLanguageStrings mbtowc msgCount lblCount (.ok file) (.ok file') allocStrings allocLabels =
      ((ParseLanguageFile mbtowc allocLabels (fun _ => none) file' lblCount).1,
        if (ParseLanguageFile mbtowc allocLabels (fun _ => none) file' lblCount).1 ≠ 0 then
          UnloadLanguage msgCount lblCount
            ⟨(ParseLanguageFile mbtowc allocStrings (fun _ => none) file msgCount).2.1,
              (ParseLanguageFile mbtowc allocLabels (fun _ => none) file' lblCount).2.1,
              (ParseLanguageFile mbtowc allocStrings (fun _ => none) file msgCount).2.2,
              (ParseLanguageFile mbtowc allocLabels (fun _ => none) file' lblCount).2.2⟩
        else
          ⟨(ParseLanguageFile mbtowc allocStrings (fun _ => none) file msgCount).2.1,
            (ParseLanguageFile mbtowc allocLabels (fun _ => none) file' lblCount).2.1,
            (ParseLanguageFile mbtowc allocStrings (fun _ => none) file msgCount).2.2,
            (ParseLanguageFile mbtowc allocLabels (fun _ => none) file' lblCount).2.2⟩) := by
  unfold LoadLanguageStrings
  simp only [h, if_true]

theorem errno_ne (errno : {errno : Int // 0 < errno}) : ¬ - errno.1 = 0 := by
  have hpos := errno.2
  omega

private theorem LoadLanguageStrings_safe_iff (mbtowc : Mbtowc) (msgCount lblCount : Nat) (strings labels : Fopen)
    (allocStrings allocLabels : Alloc) :
    Safe msgCount lblCount (LoadLanguageStrings mbtowc msgCount lblCount strings labels allocStrings allocLabels) ↔
      Manageable msgCount lblCount strings labels allocStrings allocLabels := by
  unfold Manageable
  cases strings with
  | error errno =>
    rw [load_closed]
    exact ⟨fun _ => nofun, fun _ => ⟨nofun, nofun, fun h => absurd h (errno_ne errno),
      fun _ i => ⟨ite_self _, ite_self _⟩⟩⟩
  | ok file =>
    obtain ⟨hwrites, hzero, -⟩ := ParseLanguageFile_spec mbtowc allocStrings file msgCount
    simp only [Except.ok.injEq, forall_eq']
    by_cases hresult : (ParseLanguageFile mbtowc allocStrings (fun _ => none) file msgCount).1 = 0
    · have hcomplete : Complete allocStrings file msgCount := hzero.mp hresult
      cases labels with
      | error errno =>
        rw [load_labels_closed errno hresult]
        constructor
        · exact fun hsafe => ⟨fun i hi => hsafe.strings i ((hwrites i).mpr hi), fun _ => nofun⟩
        · rintro ⟨hbounds, -⟩
          exact ⟨fun i hi => hbounds i ((hwrites i).mp hi), nofun, fun h => absurd h (errno_ne errno),
            fun _ i => ⟨unload_none mbtowc hbounds i, ite_self _⟩⟩
      | ok file' =>
        obtain ⟨hwrites', hzero', -⟩ := ParseLanguageFile_spec mbtowc allocLabels file' lblCount
        rw [load_labels hresult]
        simp only [Except.ok.injEq, forall_eq', hcomplete, true_implies]
        by_cases hresult' : (ParseLanguageFile mbtowc allocLabels (fun _ => none) file' lblCount).1 = 0
        · have hcomplete' : Complete allocLabels file' lblCount := hzero'.mp hresult'
          have hkept := full_iff mbtowc allocStrings file msgCount hcomplete
          have hkept' := full_iff mbtowc allocLabels file' lblCount hcomplete'
          rw [if_neg (not_not.mpr hresult')]
          constructor
          · intro hsafe
            obtain ⟨hfull, hfull'⟩ := hsafe.loaded hresult'
            exact ⟨fun i hi => hsafe.strings i ((hwrites i).mpr hi), fun i hi => hsafe.labels i ((hwrites' i).mpr hi),
              fun _ => ⟨hkept.mp hfull, hkept'.mp hfull'⟩⟩
          · rintro ⟨hbounds, hbounds', hall⟩
            obtain ⟨hall, hall'⟩ := hall hcomplete'
            exact ⟨fun i hi => hbounds i ((hwrites i).mp hi), fun i hi => hbounds' i ((hwrites' i).mp hi),
              fun _ => ⟨hkept.mpr hall, hkept'.mpr hall'⟩, fun h => absurd hresult' h⟩
        · have hincomplete' : ¬ Complete allocLabels file' lblCount := fun h => hresult' (hzero'.mpr h)
          rw [if_pos hresult']
          constructor
          · intro hsafe
            exact ⟨fun i hi => hsafe.strings i ((hwrites i).mpr hi), fun i hi => hsafe.labels i ((hwrites' i).mpr hi),
              fun h => absurd h hincomplete'⟩
          · rintro ⟨hbounds, hbounds', -⟩
            exact ⟨fun i hi => hbounds i ((hwrites i).mp hi), fun i hi => hbounds' i ((hwrites' i).mp hi),
              fun h => absurd h hresult', fun _ i => ⟨unload_none mbtowc hbounds i, unload_none mbtowc hbounds' i⟩⟩
    · have hincomplete : ¬ Complete allocStrings file msgCount := fun h => hresult (hzero.mpr h)
      rw [load_strings labels hresult]
      constructor
      · intro hsafe
        exact ⟨fun i hi => hsafe.strings i ((hwrites i).mpr hi), fun h => absurd h hincomplete⟩
      · rintro ⟨hbounds, -⟩
        exact ⟨fun i hi => hbounds i ((hwrites i).mp hi), nofun, fun h => absurd h hresult,
          fun _ i => ⟨unload_none mbtowc hbounds i, ite_self _⟩⟩

/-- No string is written beyond its length. A file is parsed within its table exactly if no line too many is reached, and a language is loaded safely exactly if this holds of both files and no string of a complete language is lost when its memory is cut to size. -/
theorem language_safe (mbtowc : Mbtowc) (h : mbtowc.Multibyte) :
    (∀ t : List UInt8,
      (FormatLanguageString mbtowc (t ++ [0]) (t.length + 1)).1.length ≤ t.length + 1 ∧
      (FormatLanguageString mbtowc (t ++ [0]) (t.length + 1)).2 =
        (FormatLanguageString mbtowc (t ++ [0]) (t.length + 1)).1.length) ∧
    (∀ alloc array file expected, (∀ i ∈ (ParseLanguageFile mbtowc alloc array file expected).2.2, i < expected) ↔
      InBounds alloc file expected) ∧
    ∀ msgCount lblCount strings labels allocStrings allocLabels,
      Safe msgCount lblCount (LoadLanguageStrings mbtowc msgCount lblCount strings labels allocStrings allocLabels) ↔
        Manageable msgCount lblCount strings labels allocStrings allocLabels := by
  refine ⟨FormatLanguageString_length h, fun alloc array file expected => ?_, LoadLanguageStrings_safe_iff mbtowc⟩
  exact forall_congr' fun i => imp_congr_left (ParseLanguageFile_writes mbtowc alloc array file expected i)

/-- `mbtowc` where every byte is a character. -/
def byteMbtowc : Mbtowc := fun s n =>
  match s with
  | [] => (-1, 0)
  | b :: _ => if n = 0 then (-1, 0) else if b = 0 then (0, 0) else (1, b.toNat)

theorem byteMbtowc_multibyte : byteMbtowc.Multibyte := by
  refine ⟨fun s n => ?_, fun s n b hb => ?_⟩
  · unfold byteMbtowc
    split
    · omega
    · split
      · omega
      · split
        · omega
        · omega
  · unfold byteMbtowc at hb
    split at hb
    · cases hb
    · split at hb
      · cases hb
      · split at hb
        · cases hb
        · rename_i hne
          obtain rfl := List.mem_singleton.mp hb
          exact hne

theorem language_safe_bytes : (FormatLanguageString byteMbtowc ([0x61, 0x5C, 0x6E, 0x62] ++ [0]) 5) =
      ([0x61, 10, 0x62, 0], 4) ∧
    (Safe 1 1 (LoadLanguageStrings byteMbtowc 1 1 (.ok [0x61, 10]) (.ok [0x62]) ⟨fun _ => true, fun _ => true⟩
      ⟨fun _ => true, fun _ => true⟩) ↔
      Manageable 1 1 (.ok [0x61, 10]) (.ok [0x62]) ⟨fun _ => true, fun _ => true⟩ ⟨fun _ => true, fun _ => true⟩) :=
  ⟨by decide, (language_safe byteMbtowc byteMbtowc_multibyte).2.2 _ _ _ _ _ _⟩

/-- A file with a line too many: it is written behind the table. -/
theorem not_safe : ¬ ∀ (mbtowc : Mbtowc), mbtowc.Multibyte → ∀ alloc array file expected,
    ∀ i ∈ (ParseLanguageFile mbtowc alloc array file expected).2.2, i < expected := by
  intro h
  have hwritten := h byteMbtowc byteMbtowc_multibyte ⟨fun _ => true, fun _ => true⟩ (fun _ => none) [0x61, 10, 0x62] 1 1
    (by decide)
  exact absurd hwritten (by decide)

end HddChecker.Ui
