import Mathlib.Data.Nat.Bitwise
import HddChecker.Hdsk.FreeSectors

/-!
# The two reports of free space compared

Both reports count sizes that are powers of two: what they count from 1 GB on is a sum, below it a set of bits. The set of `apaGetFreeSectors` has a size that occurs, and all smaller ones if it occurs twice; the set of `hdskSimGetFreeSectors` only has the sizes that occur. The reports agree if and only if the sums and the sets do.
-/

namespace HddChecker.Hdsk

open HddChecker Apa Prog

variable {d : Device} {p : Sim.Bitmap} {P Q R : List ApaHeader} {x : ApaHeader}
  {l A B : List Nat} {totalLBA sectors free high n k m b s v : Nat}

/-! ### Sums and sets -/

/-- A size that the reports count. -/
def Size (n : Nat) : Prop := n.isPowerOfTwo ∧ 0x40000 ≤ n

/-- The sum `v` is `high` from 1 GB on, and has the bits `bits` below. -/
structure Shown (v high : Nat) (bits : Nat → Prop) : Prop where
  lt : v < 2 ^ 32
  high : v / 2 ^ 21 * 2 ^ 21 = high % 2 ^ 32
  low : ∀ k < 21, v.testBit k = true ↔ 18 ≤ k ∧ bits (2 ^ k)

/-- The sum of the sizes from 1 GB on. -/
def large (l : List Nat) : Nat := (l.filter fun n => decide (0x1FFFFF < n)).sum

theorem large_append_large (h : 0x1FFFFF < n) : large (l ++ [n]) = large l + n := by
  rw [large, List.filter_append, List.sum_append]
  simp [large, h]

theorem large_append_small (h : ¬ 0x1FFFFF < n) : large (l ++ [n]) = large l := by
  rw [large, List.filter_append, List.sum_append]
  simp [large, h]

private theorem shown_nil {bits : Nat → Prop} (h : ∀ b, ¬ bits b) : Shown 0 (large []) bits where
  lt := by decide
  high := rfl
  low := fun k _ => by simp [h]

theorem Shown.congr {bits bits' : Nat → Prop} (h : Shown v high bits)
    (hbits : ∀ k, 18 ≤ k → k < 21 → (bits (2 ^ k) ↔ bits' (2 ^ k))) : Shown v high bits' := by
  refine ⟨h.lt, h.high, fun k hk => ?_⟩
  rw [h.low k hk]
  exact and_congr_right fun hle => hbits k hle hk

private theorem high_add {c : Nat} (h : v / 2 ^ 21 * 2 ^ 21 = high % 2 ^ 32) :
    (v + 2 ^ 21 * c) % 2 ^ 32 / 2 ^ 21 * 2 ^ 21 = (high + 2 ^ 21 * c) % 2 ^ 32 :=
  calc (v + 2 ^ 21 * c) % 2 ^ 32 / 2 ^ 21 * 2 ^ 21
      = (v + 2 ^ 21 * c) % (2 ^ 21 * 2 ^ 11) / 2 ^ 21 * 2 ^ 21 := by rw [← Nat.pow_add]
    _ = (v / 2 ^ 21 + c) % 2 ^ 11 * 2 ^ 21 := by
      rw [Nat.mod_mul_right_div_self, Nat.add_mul_div_left _ _ (Nat.two_pow_pos 21)]
    _ = (v / 2 ^ 21 * 2 ^ 21 + 2 ^ 21 * c) % 2 ^ 32 := by
      rw [← Nat.mul_mod_mul_right, ← Nat.pow_add, Nat.add_mul, Nat.mul_comm c]
    _ = (high + 2 ^ 21 * c) % 2 ^ 32 := by rw [h, Nat.mod_add_mod]

private theorem low_add {c : Nat} : (v + 2 ^ 21 * c) % 2 ^ 32 % 2 ^ 21 = v % 2 ^ 21 := by
  rw [Nat.mod_mod_of_dvd _ (Nat.pow_dvd_pow 2 (by decide)), Nat.add_mul_mod_self_left]

/-- A size from 1 GB on is added to the sum. -/
theorem Shown.add {bits : Nat → Prop} (h : Shown v high bits) (hn : n.isPowerOfTwo)
    (hlarge : 0x1FFFFF < n) : Shown (add32 v n) (high + n) bits := by
  obtain ⟨j, rfl⟩ := hn
  have hj : 21 ≤ j := by
    by_contra hlt
    have hle : 2 ^ j ≤ 2 ^ 20 := Nat.pow_le_pow_right Nat.two_pos (by omega)
    omega
  obtain ⟨c, hc⟩ := Nat.pow_dvd_pow 2 hj
  rw [hc]
  refine ⟨Nat.mod_lt _ (by decide), high_add h.high, fun k hk => ?_⟩
  have hbit := congrArg (·.testBit k) (low_add (v := v) (c := c))
  simp only [Nat.testBit_mod_two_pow, hk, decide_true, Bool.true_and] at hbit
  rw [← h.low k hk]
  unfold add32 u32
  rw [Nat.testBit_mod_two_pow, hbit]

theorem exists_bit (hn : Size n) (hsmall : ¬ 0x1FFFFF < n) : ∃ j, n = 2 ^ j ∧ 18 ≤ j ∧ j < 21 := by
  obtain ⟨⟨j, rfl⟩, hmin⟩ := hn
  refine ⟨j, rfl, ?_, ?_⟩
  · by_contra hlt
    have hle : 2 ^ j ≤ 2 ^ 17 := Nat.pow_le_pow_right Nat.two_pos (by omega)
    omega
  · by_contra hlt
    have hle : 2 ^ 21 ≤ 2 ^ j := Nat.pow_le_pow_right Nat.two_pos (by omega)
    omega

theorem and_size (hn : Size n) (hsmall : ¬ 0x1FFFFF < n) {bits : Nat → Prop} (h : Shown v high bits) :
    v &&& n = 0 ↔ ¬ bits n := by
  obtain ⟨j, rfl, hlo, hhi⟩ := exists_bit hn hsmall
  have hlow := h.low j hhi
  rw [Nat.and_two_pow]
  cases hbit : v.testBit j
  · rw [hbit] at hlow
    simp only [Bool.toNat_false, Nat.zero_mul, true_iff]
    exact fun hb => Bool.false_ne_true (hlow.mpr ⟨hlo, hb⟩)
  · have hpos := Nat.two_pow_pos j
    simp only [Bool.toNat_true, Nat.one_mul]
    exact ⟨fun h0 => absurd h0 hpos.ne', fun hno => absurd (hlow.mp hbit).2 hno⟩

/-- A size whose bit is clear is set. -/
theorem Shown.or {bits : Nat → Prop} (h : Shown v high bits) (hn : Size n) (hsmall : ¬ 0x1FFFFF < n) :
    Shown (v ||| n) high fun b => bits b ∨ b = n := by
  obtain ⟨j, rfl, hlo, hhi⟩ := exists_bit hn hsmall
  refine ⟨Nat.or_lt_two_pow h.lt (Nat.pow_lt_pow_right Nat.one_lt_two (by omega)), ?_, fun k hk => ?_⟩
  · have hzero : 2 ^ j / 2 ^ 21 = 0 := Nat.div_eq_of_lt (Nat.pow_lt_pow_right Nat.one_lt_two hhi)
    rw [Nat.or_div_two_pow, hzero, Nat.or_zero]
    exact h.high
  · rw [Nat.testBit_or, Bool.or_eq_true, Nat.testBit_two_pow, decide_eq_true_eq, h.low k hk,
      Nat.pow_right_inj (le_refl 2)]
    constructor
    · rintro (⟨hle, hb⟩ | rfl)
      · exact ⟨hle, .inl hb⟩
      · exact ⟨hlo, .inr rfl⟩
    · rintro ⟨hle, hb | rfl⟩
      · exact .inl ⟨hle, hb⟩
      · exact .inr rfl

private theorem add32_size (hlt : v < 2 ^ 32) (hn : Size n) (hsmall : ¬ 0x1FFFFF < n) (hclear : v &&& n = 0) :
    add32 v n = v ||| n := by
  obtain ⟨j, rfl, -, hhi⟩ := exists_bit hn hsmall
  have hltn : 2 ^ j < 2 ^ 32 := Nat.pow_lt_pow_right Nat.one_lt_two (by omega)
  have hzero : BitVec.ofNat 32 v &&& BitVec.ofNat 32 (2 ^ j) = 0#32 := by
    apply BitVec.eq_of_toNat_eq
    rw [BitVec.toNat_and, BitVec.toNat_ofNat, BitVec.toNat_ofNat, Nat.mod_eq_of_lt hlt,
      Nat.mod_eq_of_lt hltn, hclear]
    rfl
  have hor := congrArg BitVec.toNat (BitVec.add_eq_or_of_and_eq_zero _ _ hzero)
  rw [BitVec.toNat_add, BitVec.toNat_or, BitVec.toNat_ofNat, BitVec.toNat_ofNat, Nat.mod_eq_of_lt hlt,
    Nat.mod_eq_of_lt hltn] at hor
  exact hor

/-- All sizes below `2 ^ j` are set. -/
theorem Shown.orSmaller {bits : Nat → Prop} (h : Shown v high bits) {j : Nat} (hj : j ≤ 21) :
    Shown (orSmaller v (2 ^ j / 2)) high fun b => bits b ∨ b < 2 ^ j := by
  induction j generalizing v bits with
  | zero =>
    have hstop : Hdsk.orSmaller v (2 ^ 0 / 2) = v := by
      rw [Hdsk.orSmaller]
      rfl
    rw [hstop]
    apply h.congr
    intro k hk _
    simp
  | succ j ih =>
    rw [Nat.pow_succ, Nat.mul_div_cancel _ Nat.two_pos, Hdsk.orSmaller, ← Nat.pow_succ]
    split
    · rename_i hlarge
      have hle : 2 ^ j ≤ 2 ^ 20 := Nat.pow_le_pow_right Nat.two_pos (by omega)
      have hset := h.or ⟨⟨j, rfl⟩, hlarge⟩ (by omega)
      apply (ih hset (by omega)).congr
      intro k _ _
      rw [Nat.pow_lt_pow_iff_right Nat.one_lt_two, Nat.pow_lt_pow_iff_right Nat.one_lt_two,
        Nat.pow_right_inj (le_refl 2), or_assoc]
      exact or_congr_right (by omega)
    · rename_i hsmall
      apply h.congr
      intro k hk _
      have hno : ¬ 2 ^ k < 2 ^ (j + 1) := by
        rw [Nat.pow_lt_pow_iff_right Nat.one_lt_two]
        intro hlt
        have hle : 2 ^ 18 ≤ 2 ^ j := Nat.pow_le_pow_right Nat.two_pos (by omega)
        omega
      exact (or_iff_left hno).symm

/-! ### What is counted -/

/-- A size that `apaGetFreeSectors` has a bit for when it has counted `l`: it occurs, or a larger one does twice. -/
def InReport (l : List Nat) (b : Nat) : Prop := b ∈ l ∨ ∃ c ∈ l, b < c ∧ c ≤ 0x1FFFFF ∧ 2 ≤ l.count c

private theorem inReport_large (h : 0x1FFFFF < n) (hb : b ≤ 0x1FFFFF) : InReport (l ++ [n]) b ↔ InReport l b := by
  have hmem : ∀ {c}, c ≤ 0x1FFFFF → (c ∈ l ++ [n] ↔ c ∈ l) := by
    intro c hc
    rw [List.mem_append, List.mem_singleton]
    exact or_iff_left (by omega)
  have hcount : ∀ {c}, c ≤ 0x1FFFFF → (l ++ [n]).count c = l.count c := by
    intro c hc
    rw [List.count_append, List.count_singleton, if_neg (by simp; omega), Nat.add_zero]
  unfold InReport
  rw [hmem hb]
  apply or_congr_right
  apply exists_congr
  intro c
  constructor
  · rintro ⟨hc, hlt, hle, htwo⟩
    exact ⟨(hmem hle).mp hc, hlt, hle, hcount hle ▸ htwo⟩
  · rintro ⟨hc, hlt, hle, htwo⟩
    exact ⟨(hmem hle).mpr hc, hlt, hle, (hcount hle).symm ▸ htwo⟩

theorem InReport.append (h : InReport l b) : InReport (l ++ [n]) b := by
  obtain hb | ⟨c, hc, hlt, hle, htwo⟩ := h
  · exact .inl (List.mem_append_left _ hb)
  · refine .inr ⟨c, List.mem_append_left _ hc, hlt, hle, ?_⟩
    rw [List.count_append]
    omega

private theorem inReport_new (h : ¬ InReport l n) : InReport (l ++ [n]) b ↔ InReport l b ∨ b = n := by
  constructor
  · rintro (hb | ⟨c, hc, hlt, hle, htwo⟩)
    · rw [List.mem_append, List.mem_singleton] at hb
      exact hb.imp_left .inl
    · have hne : c ≠ n := by
        rintro rfl
        rw [List.count_append, List.count_singleton_self] at htwo
        exact h (.inl (List.count_pos_iff.mp (by omega)))
      rw [List.mem_append, List.mem_singleton, or_iff_left hne] at hc
      rw [List.count_append, List.count_singleton, if_neg (by simpa using hne.symm)] at htwo
      exact .inl (.inr ⟨c, hc, hlt, hle, htwo⟩)
  · rintro (hb | rfl)
    · exact hb.append
    · exact .inl (List.mem_append_right _ List.mem_cons_self)

private theorem inReport_again (h : InReport l n) (hn : n ≤ 0x1FFFFF) :
    InReport (l ++ [n]) b ↔ InReport l b ∨ b < n := by
  constructor
  · rintro (hb | ⟨c, hc, hlt, hle, htwo⟩)
    · rw [List.mem_append, List.mem_singleton] at hb
      obtain hb | rfl := hb
      · exact .inl (.inl hb)
      · exact .inl h
    · by_cases heq : c = n
      · exact .inr (heq ▸ hlt)
      · rw [List.mem_append, List.mem_singleton, or_iff_left heq] at hc
        rw [List.count_append, List.count_singleton, if_neg (by simpa using Ne.symm heq)] at htwo
        exact .inl (.inr ⟨c, hc, hlt, hle, htwo⟩)
  · rintro (hb | hlt)
    · exact hb.append
    · obtain hmem | ⟨c, hc, hlt', hle, htwo⟩ := h
      · refine .inr ⟨n, List.mem_append_left _ hmem, hlt, hn, ?_⟩
        have hpos := List.count_pos_iff.mpr hmem
        rw [List.count_append, List.count_singleton_self]
        omega
      · exact InReport.append (.inr ⟨c, hc, hlt.trans hlt', hle, htwo⟩)

/-- The table report counts a size. -/
theorem Shown.calculate (h : Shown v (large l) (InReport l)) (hn : Size n) :
    Shown (apaCalculateFreeSpace add32 v n) (large (l ++ [n])) (InReport (l ++ [n])) := by
  unfold apaCalculateFreeSpace
  split
  · rename_i hlarge
    rw [large_append_large hlarge]
    apply (h.add hn.1 hlarge).congr
    intro k _ hk
    have hle : 2 ^ k ≤ 2 ^ 20 := Nat.pow_le_pow_right Nat.two_pos (by omega)
    exact (inReport_large hlarge (by omega)).symm
  · rename_i hsmall
    rw [large_append_small hsmall]
    split
    · rename_i hclear
      apply (h.or hn hsmall).congr
      intro k _ _
      exact (inReport_new ((and_size hn hsmall h).mp hclear)).symm
    · rename_i hset
      have hbit : InReport l n := by
        by_contra hno
        exact hset ((and_size hn hsmall h).mpr hno)
      obtain ⟨j, rfl, -, hj⟩ := exists_bit hn hsmall
      apply (h.orSmaller hj.le).congr
      intro k _ _
      exact (inReport_again hbit (by omega)).symm

/-- The report of the simulated list counts a size. -/
theorem Shown.simCount (h : Shown v (large l) (· ∈ l)) (hn : Size n) :
    Shown (simCount v n) (large (l ++ [n])) (· ∈ l ++ [n]) := by
  have hmem : ∀ b, b ∈ l ++ [n] ↔ b ∈ l ∨ b = n := by
    intro b
    rw [List.mem_append, List.mem_singleton]
  unfold Hdsk.simCount
  by_cases hlarge : 0x1FFFFF < n
  · rw [if_pos (.inl hlarge), large_append_large hlarge]
    apply (h.add hn.1 hlarge).congr
    intro k _ hk
    have hle : 2 ^ k ≤ 2 ^ 20 := Nat.pow_le_pow_right Nat.two_pos (by omega)
    rw [hmem]
    exact (or_iff_left (by omega)).symm
  · rw [large_append_small hlarge]
    have hand := and_size hn hlarge h
    by_cases hin : n ∈ l
    · rw [if_neg (not_or_intro hlarge fun h0 => hand.mp h0 hin)]
      apply h.congr
      intro k _ _
      rw [hmem]
      exact (or_iff_left_of_imp fun heq => heq ▸ hin).symm
    · rw [if_pos (.inr (hand.mpr hin)), add32_size h.lt hn hlarge (hand.mpr hin)]
      apply (h.or hn hlarge).congr
      intro k _ _
      rw [hmem]

theorem shown_foldl {count : Nat → Nat → Nat} {bits : List Nat → Nat → Prop} (hnil : ∀ b, ¬ bits [] b)
    (hstep : ∀ {l v n}, Shown v (large l) (bits l) → Size n → Shown (count v n) (large (l ++ [n])) (bits (l ++ [n])))
    (hl : ∀ n ∈ l, Size n) : Shown (l.foldl count 0) (large l) (bits l) := by
  induction l using List.reverseRecOn with
  | nil => exact shown_nil hnil
  | append_singleton l n ih =>
    rw [List.foldl_append]
    apply hstep
    · exact ih fun m hm => hl m (List.mem_append_left _ hm)
    · exact hl n (List.mem_append_right _ List.mem_cons_self)

private theorem shown_calculate (hl : ∀ n ∈ l, Size n) :
    Shown (l.foldl (apaCalculateFreeSpace add32) 0) (large l) (InReport l) := by
  apply shown_foldl _ Shown.calculate hl
  intro b
  simp [InReport]

private theorem shown_simCount (hl : ∀ n ∈ l, Size n) : Shown (l.foldl simCount 0) (large l) (· ∈ l) :=
  shown_foldl (fun _ => List.not_mem_nil) Shown.simCount hl

/-! ### The records -/

/-- The record `hdskBitmapInit` makes of a partition. -/
def record (x : ApaHeader) : Sim.Record := ⟨x.start, x.length, x.type.toNat⟩

/-- A record for each partition follows the head, in the order of the table. -/
structure Recorded (p : Sim.Bitmap) (P : List ApaHeader) : Prop where
  head : p.type 0 = 0 ∧ p.length 0 = 0
  next : ∀ i < P.length, p.next i = i + 1
  last : p.next P.length = 0
  fields : ∀ A x B, P = A ++ x :: B → p.type (A.length + 1) = x.type.toNat ∧ p.length (A.length + 1) = x.length

private theorem path_range {next prev : Nat → Nat} {z : Nat}
    (h : Path next prev k (List.range' (k + 1) n) z) :
    (∀ i < n, next (k + i) = k + i + 1) ∧ next (k + n) = z := by
  induction n generalizing k with
  | zero => exact ⟨fun i hi => absurd hi (Nat.not_lt_zero i), h.1⟩
  | succ n ih =>
    obtain ⟨hnext, -, hrest⟩ := h
    obtain ⟨hall, hlast⟩ := ih hrest
    rw [Nat.add_assoc, Nat.add_comm 1 n] at hlast
    refine ⟨fun i hi => ?_, hlast⟩
    cases i with
    | zero => exact hnext
    | succ i =>
      have h := hall i (by omega)
      rwa [Nat.add_assoc, Nat.add_comm 1 i] at h

private theorem recorded_init (P : List ApaHeader) : Recorded (Sim.hdskBitmapInit (P.map record)) P := by
  have hempty : Sim.Ring { next := fun i => if i = 0 then 0 else Sim.NULL
                           prev := fun i => if i = 0 then 0 else Sim.NULL
                           start := fun i => if i = 0 then 0 else ((P.map record).map (·.start)).getD (i - 1) 0
                           length := fun i => if i = 0 then 0 else ((P.map record).map (·.length)).getD (i - 1) 0
                           type := fun i => if i = 0 then 0 else ((P.map record).map (·.type)).getD (i - 1) 0 } [] :=
    ⟨⟨rfl, rfl⟩, List.nodup_singleton 0⟩
  obtain ⟨hring, -, hlength, htype⟩ := Sim.initLoop_spec hempty (P.map record).length
  obtain ⟨hnext, hlast⟩ := path_range (k := 0) hring.path
  simp only [Nat.zero_add] at hnext hlast
  have hlen : (P.map record).length = P.length := List.length_map _
  constructor
  case head => exact ⟨congrFun htype 0, congrFun hlength 0⟩
  case next => exact fun i hi => hnext i (by rwa [hlen])
  case last =>
    rw [← hlen]
    exact hlast
  case fields =>
    rintro A x B rfl
    refine ⟨(congrFun htype _).trans ?_, (congrFun hlength _).trans ?_⟩
    · simp [record]
    · simp [record]

/-- What a record adds to the sums. -/
def simPart (x : Nat × Nat) (h : ApaHeader) : Nat × Nat :=
  if h.type = 0 then (simCount x.1 h.length, add32 (add32 x.2 h.length) h.length) else (x.1, add32 x.2 h.length)

private theorem runs_sumRecords_from (h : Recorded p (Q ++ x :: R)) (free sectors : Nat) :
    Runs (sumRecords (Q.length + 1, free, sectors)) p ((x :: R).dropLast.foldl simPart (free, sectors)) p := by
  induction R generalizing Q x free sectors with
  | nil =>
    refine Runs.done ?_
    refine (runs_ofState _ p).bind ?_
    have hlast := h.last
    rw [List.length_append, List.length_singleton] at hlast
    simp only [id, hlast, if_true]
    exact runs_pure _ _
  | cons y R ih =>
    have h' : Recorded p ((Q ++ [x]) ++ y :: R) := by rwa [List.append_assoc]
    have hrest := ih h' (simPart (free, sectors) x).1 (simPart (free, sectors) x).2
    rw [List.length_append, List.length_singleton] at hrest
    refine Runs.step ?_ hrest
    obtain ⟨htype, hlength⟩ := h.fields Q x (y :: R) rfl
    have hnext := h.next (Q.length + 1) (by simp)
    have hiff : p.type (Q.length + 1) = 0 ↔ x.type = 0 := by
      rw [htype, ← UInt16.toNat_inj]
      rfl
    refine (runs_ofState _ p).bind ?_
    simp only [id, hnext, Nat.succ_ne_zero, if_false, hlength, hiff, simPart]
    split
    · exact runs_pure _ _
    · exact runs_pure _ _

private theorem runs_sumRecords (h : Recorded p P) (hne : P ≠ []) :
    Runs (sumRecords (0, 0, 0)) p (P.dropLast.foldl simPart (0, 0)) p := by
  obtain ⟨x, R, rfl⟩ := List.exists_cons_of_ne_nil hne
  have hrest := runs_sumRecords_from (Q := []) h 0 0
  refine Runs.step ?_ hrest
  obtain ⟨htype, hlength⟩ := h.head
  have hnext := h.next 0 (by simp)
  refine (runs_ofState _ p).bind ?_
  simp only [id, hnext, htype, hlength, Nat.succ_ne_zero, if_false, if_true]
  exact runs_pure _ _

theorem add32_lt (a b : Nat) : add32 a b < 2 ^ 32 := Nat.mod_lt _ (by decide)

private theorem foldl_simPart (Q : List ApaHeader) (free sectors : Nat) (hlt : sectors < 2 ^ 32) :
    Q.foldl simPart (free, sectors) =
      ((freeLengths Q).foldl simCount free, u32 (sectors + Apa.total Q + (freeLengths Q).sum)) := by
  induction Q generalizing free sectors with
  | nil => exact Prod.ext rfl (Nat.mod_eq_of_lt hlt).symm
  | cons x Q ih =>
    have hiff : x.type = 0 ↔ x.isFree = true := (ApaHeader.isFree_iff x).symm
    rw [List.foldl_cons, simPart]
    by_cases hfree : x.isFree = true
    · rw [if_pos (hiff.mpr hfree), ih _ _ (add32_lt _ _), freeLengths_free hfree, List.foldl_cons,
        List.sum_cons, total_cons]
      congr 1
      simp only [add32, u32]
      omega
    · rw [if_neg (mt hiff.mp hfree), ih _ _ (add32_lt _ _), freeLengths_used hfree, total_cons]
      congr 1
      simp only [add32, u32]
      omega

/-! ### The reports -/

/-- Where `hdskSimGetFreeSectors` takes the partitions to end. -/
def simEnd (P : List ApaHeader) : Nat := u32 (Apa.total P.dropLast + (freeLengths P.dropLast).sum)

/-- All sizes that `hdskSimGetFreeSectors` counts. -/
def simCounted (totalLBA : Nat) (P : List ApaHeader) : List Nat :=
  freeLengths P.dropLast ++ blocks (apaGetPartitionMax totalLBA) totalLBA (simEnd P)

private theorem runs_hdskSimGetFreeSectors (hne : P ≠ []) (hlba : totalLBA < 2 ^ 32) :
    ∃ sectors, Runs (hdskSimGetFreeSectors (apaGetPartitionMax totalLBA) totalLBA)
      (Sim.hdskBitmapInit (P.map record)) ((simCounted totalLBA P).foldl simCount 0, sectors)
      (Sim.hdskBitmapInit (P.map record)) := by
  have hsum := runs_sumRecords (recorded_init P) hne
  rw [foldl_simPart _ _ _ (by decide), Nat.zero_add] at hsum
  have hroom := runs_estimateRoom (apaGetPartitionMax totalLBA) sums_add32 simCount hlba.le
    ((freeLengths P.dropLast).foldl simCount 0) (simEnd P) (Sim.hdskBitmapInit (P.map record))
  rw [← List.foldl_append] at hroom
  exact ⟨_, hsum.bind hroom⟩

private theorem runs_apaGetFreeSectors (h : Listed d P) (hend : Apa.total P ≤ totalLBA) (hlba : totalLBA < 2 ^ 32) :
    ∃ sectors d', Runs (apaGetFreeSectors (apaGetPartitionMax totalLBA) totalLBA) d
      (0, (counted totalLBA P).foldl (apaCalculateFreeSpace add32) 0, sectors) d' := by
  obtain ⟨d', hrun⟩ := runs_reportFree_counted sums_add32 h hend hlba
  have hroom := sum_blocks_le (apaGetPartitionMax totalLBA) totalLBA (Apa.total P)
  have hfree := sum_freeLengths_le P
  have hsum := (foldl_apaCalculateFreeSpace sums_add32 (counted totalLBA P) 0 (by
    rw [counted, List.sum_append]
    omega)).1
  rw [← hsum] at hrun
  exact ⟨_, d', hrun⟩

theorem size_blocks (hn : n ∈ blocks (apaGetPartitionMax totalLBA) totalLBA s) : Size n := by
  obtain ⟨A, B, heq⟩ := List.append_of_mem hn
  obtain ⟨hpow, hmin, -⟩ := blocks_spec (apaGetPartitionMax_pow totalLBA) heq
  exact ⟨hpow, hmin⟩

theorem size_freeLengths (hsize : ∀ x ∈ P, Part x) (hn : n ∈ freeLengths P) : Size n := by
  obtain ⟨x, hx, rfl⟩ := List.mem_map.mp hn
  have hpart := hsize x (List.mem_filter.mp hx).1
  exact ⟨hpart.dyadic.1, hpart.large⟩

/-- Equal from 1 GB on, and the same bits below. -/
theorem Shown.eq_iff {high' w : Nat} {bits bits' : Nat → Prop} (h : Shown v high bits)
    (h' : Shown w high' bits') :
    v = w ↔ high % 2 ^ 32 = high' % 2 ^ 32 ∧
      ∀ k, 18 ≤ k → k < 21 → (bits (2 ^ k) ↔ bits' (2 ^ k)) := by
  constructor
  · rintro rfl
    refine ⟨h.high.symm.trans h'.high, fun k hle hk => ?_⟩
    have hlow := (h.low k hk).symm.trans (h'.low k hk)
    simpa [hle] using hlow
  · rintro ⟨hhigh, hbits⟩
    have hlow : v % 2 ^ 21 = w % 2 ^ 21 := by
      apply Nat.eq_of_testBit_eq
      intro k
      rw [Nat.testBit_mod_two_pow, Nat.testBit_mod_two_pow]
      by_cases hk : k < 21
      · congr 1
        rw [Bool.eq_iff_iff, h.low k hk, h'.low k hk]
        exact and_congr_right fun hle => hbits k hle hk
      · simp [hk]
    have hdiv : v / 2 ^ 21 * 2 ^ 21 = w / 2 ^ 21 * 2 ^ 21 := by rw [h.high, h'.high, hhigh]
    have hv := Nat.div_add_mod v (2 ^ 21)
    have hw := Nat.div_add_mod w (2 ^ 21)
    rw [Nat.mul_comm] at hv hw
    rw [← hv, ← hw, hdiv, hlow]

/-- What is counted in the list `B` gives the report of the list `A`. -/
def Alike (A B : List Nat) : Prop :=
  large A % 2 ^ 32 = large B % 2 ^ 32 ∧ ∀ k, 18 ≤ k → k < 21 → (InReport A (2 ^ k) ↔ 2 ^ k ∈ B)

theorem alike_iff (htiles : Apa.Tiles 0 P) :
    (counted totalLBA P).foldl (apaCalculateFreeSpace add32) 0 = (simCounted totalLBA P).foldl simCount 0 ↔
      Alike (counted totalLBA P) (simCounted totalLBA P) := by
  apply Shown.eq_iff
  · apply shown_calculate
    intro n hn
    rcases List.mem_append.mp hn with hn | hn
    · exact size_freeLengths (fun x hx => htiles.part hx) hn
    · exact size_blocks hn
  · apply shown_simCount
    intro n hn
    rcases List.mem_append.mp hn with hn | hn
    · exact size_freeLengths (fun x hx => htiles.part (List.mem_of_mem_dropLast hx)) hn
    · exact size_blocks hn

/-- Both reports end with the same free space. -/
def Agree (d : Device) (totalLBA : Nat) (P : List ApaHeader) : Prop :=
  ∃ free sectors sectors' d' p',
    Runs (apaGetFreeSectors (apaGetPartitionMax totalLBA) totalLBA) d (0, free, sectors) d' ∧
      Runs (hdskSimGetFreeSectors (apaGetPartitionMax totalLBA) totalLBA)
        (Sim.hdskBitmapInit (P.map record)) (free, sectors') p'

theorem agree_iff (h : Listed d P) (hend : Apa.total P ≤ totalLBA) (hlba : totalLBA < 2 ^ 32) :
    Agree d totalLBA P ↔ (counted totalLBA P).foldl (apaCalculateFreeSpace add32) 0 =
      (simCounted totalLBA P).foldl simCount 0 := by
  obtain ⟨sectors, d', hapa⟩ := runs_apaGetFreeSectors h hend hlba
  obtain ⟨sectors', hsim⟩ := runs_hdskSimGetFreeSectors h.ne_nil hlba
  constructor
  · rintro ⟨free, s, s', e, q, hapa', hsim'⟩
    have hfree := congrArg (·.2.1) (hapa.unique hapa').1
    have hfree' := congrArg (·.1) (hsim.unique hsim').1
    exact hfree.trans hfree'.symm
  · intro heq
    rw [← heq] at hsim
    exact ⟨_, _, _, _, _, hapa, hsim⟩

/-- The reports agree if and only if they count alike. -/
theorem hdskSimGetFreeSectors_agrees (h : Listed d P) (hend : Apa.total P ≤ totalLBA)
    (hlba : totalLBA < 2 ^ 32) :
    Agree d totalLBA P ↔ Alike (counted totalLBA P) (simCounted totalLBA P) :=
  (agree_iff h hend hlba).trans (alike_iff h.tiles)

/-! ### Small disks -/

theorem blocks_nil {partMax : Nat} (h : partMax < 0x40000) (totalLBA s : Nat) :
    blocks partMax totalLBA s = [] := by
  rw [blocks]
  split
  · rfl
  · rename_i b hfit
    obtain ⟨hmin, hle, -⟩ := fitting_spec hfit
    omega

/-- An empty partition before one in use. -/
def oneFree : List ApaHeader :=
  [mbrHeader, plainHeader 0x40000 0x40000 APA_TYPE_FREE, plainHeader 0x80000 0x80000 0x0100]

private theorem oneFree_tiles : Apa.Tiles 0 oneFree :=
  ⟨rfl, part_mbr, rfl, part_plain ⟨⟨18, rfl⟩, by decide⟩ (by decide) (by decide) (by decide), rfl,
    part_plain ⟨⟨19, rfl⟩, by decide⟩ (by decide) (by decide) (by decide), trivial⟩

theorem hdskSimGetFreeSectors_agrees_one :
    Agree (Device.boot (tableDisk oneFree)) 0x100000 oneFree := by
  have hlisted := listed_boot oneFree_tiles (by decide) (List.cons_ne_nil _ _)
  have hmax : apaGetPartitionMax 0x100000 < 0x40000 := by decide
  apply (hdskSimGetFreeSectors_agrees hlisted (by decide) (by decide)).mpr
  rw [counted, simCounted, blocks_nil hmax, blocks_nil hmax]
  refine ⟨by decide, fun k _ _ => or_iff_left ?_⟩
  rintro ⟨c, -, -, -, htwo⟩
  have hone : (freeLengths oneFree ++ []).count c ≤ 1 := List.nodup_iff_count_le_one.mp (by decide) c
  omega

/-- Two empty partitions of one length. -/
def twoFree : List ApaHeader :=
  [mbrHeader, plainHeader 0x40000 0x40000 0x0100, plainHeader 0x80000 0x80000 APA_TYPE_FREE,
    plainHeader 0x100000 0x80000 APA_TYPE_FREE, plainHeader 0x180000 0x80000 0x0100]

theorem twoFree_tiles : Apa.Tiles 0 twoFree :=
  ⟨rfl, part_mbr, rfl, part_plain ⟨⟨18, rfl⟩, by decide⟩ (by decide) (by decide) (by decide), rfl,
    part_plain ⟨⟨19, rfl⟩, by decide⟩ (by decide) (by decide) (by decide), rfl,
    part_plain ⟨⟨19, rfl⟩, by decide⟩ (by decide) (by decide) (by decide), rfl,
    part_plain ⟨⟨19, rfl⟩, by decide⟩ (by decide) (by decide) (by decide), trivial⟩

/-- Only `apaGetFreeSectors` counts a smaller partition for the second empty one. -/
theorem not_agree : ¬ ∀ (d : Device) (P : List ApaHeader) (totalLBA : Nat), Listed d P →
    Apa.total P ≤ totalLBA → totalLBA < 2 ^ 32 → Agree d totalLBA P := by
  intro hall
  have hlisted := listed_boot twoFree_tiles (by decide) (List.cons_ne_nil _ _)
  have hmax : apaGetPartitionMax 0x200000 < 0x40000 := by decide
  have hagree := hall _ twoFree 0x200000 hlisted (by decide) (by decide)
  rw [agree_iff hlisted (by decide) (by decide), alike_iff twoFree_tiles, counted, simCounted,
    blocks_nil hmax, blocks_nil hmax] at hagree
  have hmem := (hagree.2 18 le_rfl (by decide)).mp (.inr ⟨0x80000, by decide⟩)
  revert hmem
  decide

end HddChecker.Hdsk
