import Mathlib.Algebra.Order.BigOperators.Group.List
import HddChecker.Apa.Format
import HddChecker.Apa.Steady
import HddChecker.Hdsk.Thread
import HddChecker.Hdsk.Sim

/-!
# The reports of free space

`apaGetFreeSectors` adds up the free partitions of the table and an estimate of what fits behind the last one. Of each size below 1 GB it counts one partition only: these sizes are bits of the sum. `hdskSimGetFreeSectors` does the same for the simulated list, but it goes over the records by their number, leaves out the last one and counts the sectors of free partitions twice.
-/

namespace HddChecker.Hdsk

open HddChecker Apa Prog

/-- A sum of `u32` values. -/
def add32 (a b : Nat) : Nat := u32 (a + b)

/-- The last loop of `apaCalculateFreeSpace`. -/
def orSmaller (free sectors : Nat) : Nat :=
  if _h : 0x3FFFF < sectors then orSmaller (free ||| sectors) (sectors / 2) else free
termination_by sectors
decreasing_by omega

/-- `apaCalculateFreeSpace`, with the sums of `add`. -/
def apaCalculateFreeSpace (add : Nat → Nat → Nat) (free sectors : Nat) : Nat :=
  if 0x1FFFFF < sectors then add free sectors
  else if free &&& sectors = 0 then free ||| sectors
  else orSmaller free (sectors / 2)

/-- The inner loop over the sizes for the room behind the partitions: the first of `partMax`, `partMax / 2`, … that fits. -/
def fitting (totalLBA sectors partMax : Nat) : Option Nat :=
  if _h : 0x0003FFFF < partMax then
    if sectors % partMax = 0 ∧ sectors + partMax < totalLBA then some partMax
    else fitting totalLBA sectors (partMax / 2)
  else none
termination_by partMax
decreasing_by omega

/-- The outer loop over the room behind the partitions. Each size that fits is counted by `count`, which the two reports do in different ways. -/
def estimateRoom {σ : Type} (add count : Nat → Nat → Nat) (partitionMaxSize totalLBA : Nat) :
    Nat × Nat → Prog σ (Nat × Nat) :=
  loop fun (x : Nat × Nat) =>
    match fitting totalLBA x.2 partitionMaxSize with
    | some partMax => return .inl (count x.1 partMax, add x.2 partMax)
    | none => return .inr x

/-- The loop of `apaGetFreeSectors` over the table: the result, and both sums. -/
def sumTable (add : Nat → Nat → Nat) : Nat × Nat × Nat → Prog Device (Int × Nat × Nat) :=
  loop fun (x : Nat × Nat × Nat) => do
    let (clink, free, sectors) := x
    let header ← read fun d => d.header clink
    let free := if header.type = 0 then apaCalculateFreeSpace add free header.length else free
    let sectors := add sectors header.length
    match ← ofState (Device.apaGetNextHeader clink) with
    | .ok (some clink) => return .inl (clink, free, sectors)
    | .ok none => return .inr (0, free, sectors)
    | .error err => return .inr (err, free, sectors)

/-- `apaGetFreeSectors` with the sums of `add`: the result, the free sectors and all sectors. -/
def reportFree (add : Nat → Nat → Nat) (partitionMaxSize totalLBA : Nat) : Prog Device (Int × Nat × Nat) := do
  match ← ofState (Device.apaCacheGetHeader 0) with
  | .error err => return (err, 0, 0)
  | .ok clink =>
    let (rv, free, sectors) ← sumTable add (clink, 0, 0)
    if rv = 0 then
      let (free, sectors) ← estimateRoom add (apaCalculateFreeSpace add) partitionMaxSize totalLBA (free, sectors)
      return (rv, free, sectors)
    else return (rv, free, sectors)

def apaGetFreeSectors (partitionMaxSize totalLBA : Nat) : Prog Device (Int × Nat × Nat) :=
  reportFree add32 partitionMaxSize totalLBA

/-- How `hdskSimGetFreeSectors` counts a size. -/
def simCount (free length : Nat) : Nat :=
  if 0x001FFFFF < length ∨ free &&& length = 0 then add32 free length else free

/-- The loop of `hdskSimGetFreeSectors` over the records, by their number. -/
def sumRecords : Nat × Nat × Nat → Prog Sim.Bitmap (Nat × Nat) :=
  loop fun (x : Nat × Nat × Nat) => do
    let (i, free, sectors) := x
    let p ← read id
    if p.next i = 0 then return .inr (free, sectors)
    else if p.type i = 0 then
      return .inl (i + 1, simCount free (p.length i), add32 (add32 sectors (p.length i)) (p.length i))
    else return .inl (i + 1, free, add32 sectors (p.length i))

def hdskSimGetFreeSectors (partitionMaxSize totalLBA : Nat) : Prog Sim.Bitmap (Nat × Nat) := do
  let x ← sumRecords (0, 0, 0)
  estimateRoom add32 simCount partitionMaxSize totalLBA x

/-! ### The room behind the partitions -/

variable {σ : Type} {d d' : Device} {P A B : List ApaHeader} {x : ApaHeader}
  {add count : Nat → Nat → Nat} {partMax totalLBA sectors free s b : Nat}

theorem fitting_spec (h : fitting totalLBA s partMax = some b) :
    0x40000 ≤ b ∧ b ≤ partMax ∧ b ∣ s ∧ s + b < totalLBA ∧
      (partMax.isPowerOfTwo → b.isPowerOfTwo) := by
  induction partMax using Nat.strongRecOn with
  | ind partMax ih =>
    rw [fitting] at h
    split at h
    · rename_i hlarge
      split at h
      · rename_i hfits
        cases h
        exact ⟨hlarge, le_rfl, Nat.dvd_of_mod_eq_zero hfits.1, hfits.2, id⟩
      · obtain ⟨hmin, hle, hdvd, hlt, hpow⟩ := ih (partMax / 2) (by omega) h
        refine ⟨hmin, by omega, hdvd, hlt, ?_⟩
        rintro ⟨k, rfl⟩
        apply hpow
        cases k with
        | zero => exact absurd hlarge (by decide)
        | succ k => exact ⟨k, by rw [Nat.pow_succ, Nat.mul_div_cancel _ Nat.two_pos]⟩
    · cases h

/-- The sizes counted for the room from `s` on. -/
def blocks (partMax totalLBA s : Nat) : List Nat :=
  match _h : fitting totalLBA s partMax with
  | none => []
  | some b => b :: blocks partMax totalLBA (s + b)
termination_by totalLBA - s
decreasing_by
  have hspec := fitting_spec _h
  omega

/-- Each block is a partition that fits where it is counted. -/
theorem blocks_spec (hpow : partMax.isPowerOfTwo) {A B : List Nat}
    (h : blocks partMax totalLBA s = A ++ b :: B) :
    b.isPowerOfTwo ∧ 0x40000 ≤ b ∧ b ≤ partMax ∧ b ∣ s + A.sum ∧ s + A.sum + b < totalLBA := by
  induction A generalizing s with
  | nil =>
    rw [blocks] at h
    split at h
    · cases h
    · rename_i b' hfit
      cases h
      obtain ⟨hmin, hle, hdvd, hlt, hpow'⟩ := fitting_spec hfit
      exact ⟨hpow' hpow, hmin, hle, hdvd, hlt⟩
  | cons a A ih =>
    rw [blocks] at h
    split at h
    · cases h
    · obtain ⟨rfl, hrest⟩ := List.cons.inj h
      rw [List.sum_cons, ← Nat.add_assoc]
      exact ih hrest

/-- The blocks lie on the disk. -/
theorem sum_blocks_le (partMax totalLBA s : Nat) : (blocks partMax totalLBA s).sum ≤ totalLBA - s := by
  induction hd : totalLBA - s using Nat.strongRecOn generalizing s with
  | ind n ih =>
    rw [blocks]
    split
    · exact Nat.zero_le _
    · rename_i b hfit
      obtain ⟨hmin, -, -, hlt, -⟩ := fitting_spec hfit
      have hrest := ih (totalLBA - (s + b)) (by omega) (s + b) rfl
      rw [List.sum_cons]
      omega

/-- A sum that does not wrap. -/
def Sums (add : Nat → Nat → Nat) : Prop := ∀ {a b : Nat}, a + b < 2 ^ 32 → add a b = a + b

theorem sums_add32 : Sums add32 := fun h => Nat.mod_eq_of_lt h

theorem sums_add : Sums (· + ·) := fun _ => rfl

/-- The loop over the room counts the blocks. -/
theorem runs_estimateRoom (partMax : Nat) (hadd : Sums add) (count : Nat → Nat → Nat) (htotal : totalLBA ≤ 2 ^ 32)
    (free s : Nat) (t : σ) :
    Runs (estimateRoom add count partMax totalLBA (free, s)) t
      ((blocks partMax totalLBA s).foldl count free, s + (blocks partMax totalLBA s).sum) t := by
  induction hd : totalLBA - s using Nat.strongRecOn generalizing s free with
  | ind n ih =>
    rw [blocks]
    split
    · rename_i hnone
      refine Runs.done ?_
      simp only [hnone]
      exact runs_pure _ _
    · rename_i b hfit
      obtain ⟨hmin, -, -, hlt, -⟩ := fitting_spec hfit
      have hrest := ih (totalLBA - (s + b)) (by omega) (count free b) (s + b) rfl
      rw [List.foldl_cons, List.sum_cons, ← Nat.add_assoc]
      refine Runs.step ?_ hrest
      simp only [hfit, hadd (show s + b < 2 ^ 32 by omega)]
      exact runs_pure _ _

/-! ### The table -/

/-- The drive shows a well formed table. -/
structure Listed (d : Device) (P : List ApaHeader) : Prop where
  ring : headerLinks.Ring d.view P
  tiles : Apa.Tiles 0 P
  ne_nil : P ≠ []

theorem Listed.same (h : Listed d P) (hsame : Device.Same Slot d d') : Listed d' P :=
  ⟨Linked.Chain.congr h.ring fun _ _ => hsame.view _, h.tiles, h.ne_nil⟩

theorem Listed.get (h : Listed d P) (hx : x ∈ P) :
    ∃ e, d.apaCacheGetHeader x.start = (.ok x.start, e) ∧ Device.Same Slot d e :=
  apaCacheGetHeader_of_ring h.ring h.tiles hx

theorem Listed.fields (h : Listed d (A ++ x :: B)) :
    (d.header x.start).type = x.type ∧ (d.header x.start).length = x.length := by
  obtain ⟨v, hv, hbody, -⟩ := node_of_ring h.ring
  rw [Device.header_of_view hv]
  exact ⟨congrArg (·.type) hbody, ApaHeader.length_of_body hbody⟩

theorem Listed.nextHeader (h : Listed d (A ++ x :: B)) :
    ∃ e, d.apaGetNextHeader x.start = (.ok (B.head?.map (·.start)), e) ∧ Device.Same Slot d e :=
  apaGetNextHeader_of_ring h.ring h.tiles

/-- What a partition adds to the sums. -/
def sumPart (add : Nat → Nat → Nat) (x : Nat × Nat) (h : ApaHeader) : Nat × Nat :=
  (if h.type = 0 then apaCalculateFreeSpace add x.1 h.length else x.1, add x.2 h.length)

/-- The loop over the table adds up the partitions from the one at hand on. -/
private theorem runs_sumTable (add : Nat → Nat → Nat) (h : Listed d (A ++ x :: B)) (free sectors : Nat) :
    ∃ d', Runs (sumTable add (x.start, free, sectors)) d
      (0, (x :: B).foldl (sumPart add) (free, sectors)) d' ∧ Device.Same Slot d d' := by
  induction B generalizing A x d free sectors with
  | nil =>
    obtain ⟨htype, hlength⟩ := h.fields
    obtain ⟨e, hnext, hsame⟩ := h.nextHeader
    refine ⟨e, Runs.done ?_, hsame⟩
    refine (runs_ofState _ d).bind ?_
    simp only
    refine (runs_ofState _ d).bind ?_
    rw [hnext, htype, hlength]
    exact runs_pure _ _
  | cons b B ih =>
    obtain ⟨htype, hlength⟩ := h.fields
    obtain ⟨e, hnext, hsame⟩ := h.nextHeader
    have h' : Listed e ((A ++ [x]) ++ b :: B) := by
      have heq := h.same hsame
      rwa [List.append_assoc]
    obtain ⟨d', hrun, hsame'⟩ := ih h' (sumPart add (free, sectors) x).1 (sumPart add (free, sectors) x).2
    refine ⟨d', Runs.step ?_ hrun, hsame.trans hsame'⟩
    refine (runs_ofState _ d).bind ?_
    simp only
    refine (runs_ofState _ d).bind ?_
    rw [hnext, htype, hlength]
    exact runs_pure _ _

private theorem runs_reportFree (partMax : Nat) (hadd : Sums add) (h : Listed d P) (htotal : totalLBA ≤ 2 ^ 32) :
    ∃ d', Runs (reportFree add partMax totalLBA) d
      (0, (blocks partMax totalLBA (P.foldl (sumPart add) (0, 0)).2).foldl (apaCalculateFreeSpace add)
          (P.foldl (sumPart add) (0, 0)).1,
        (P.foldl (sumPart add) (0, 0)).2 +
          (blocks partMax totalLBA (P.foldl (sumPart add) (0, 0)).2).sum) d' ∧ Device.Same Slot d d' := by
  cases P with
  | nil => exact absurd rfl h.ne_nil
  | cons m L =>
    have hzero : m.start = 0 := h.tiles.1
    obtain ⟨e, hget, hsame⟩ := h.get (x := m) List.mem_cons_self
    obtain ⟨d', hrun, hsame'⟩ := runs_sumTable add (A := []) (h.same hsame) 0 0
    refine ⟨d', ?_, hsame.trans hsame'⟩
    unfold reportFree
    refine (runs_ofState _ d).bind ?_
    rw [hzero] at hget hrun
    rw [hget]
    refine hrun.bind ?_
    simp only [if_true]
    exact (runs_estimateRoom _ hadd _ htotal _ _ _).bind (runs_pure _ _)

/-! ### The sums -/

theorem or_le_add (a b : Nat) : a ||| b ≤ a + b := by
  induction a using Nat.strongRecOn generalizing b with
  | ind a ih =>
    by_cases hzero : a = 0
    · rw [hzero, Nat.zero_or, Nat.zero_add]
    · have hhalf := ih (a / 2) (by omega) (b / 2)
      have hdiv : (a ||| b) / 2 = a / 2 ||| b / 2 := Nat.or_div_two
      have hmod : (a ||| b) % 2 = 1 ↔ a % 2 = 1 ∨ b % 2 = 1 := Nat.or_mod_two_eq_one
      omega

private theorem orSmaller_le (free n : Nat) : orSmaller free n ≤ free + 2 * n := by
  induction n using Nat.strongRecOn generalizing free with
  | ind n ih =>
    rw [orSmaller]
    split
    · have hrest := ih (n / 2) (by omega) (free ||| n)
      have hor := or_le_add free n
      omega
    · omega

private theorem apaCalculateFreeSpace_le (free n : Nat) : apaCalculateFreeSpace (· + ·) free n ≤ free + n := by
  unfold apaCalculateFreeSpace
  split
  · exact le_rfl
  · split
    · exact or_le_add free n
    · have hrest := orSmaller_le free (n / 2)
      omega

private theorem apaCalculateFreeSpace_sums (hadd : Sums add) {n : Nat} (h : free + n < 2 ^ 32) :
    apaCalculateFreeSpace add free n = apaCalculateFreeSpace (· + ·) free n := by
  simp only [apaCalculateFreeSpace, hadd h]

/-- Sizes that are counted one after the other come to no more than their sum, and nothing wraps below 2^32. -/
theorem foldl_apaCalculateFreeSpace (hadd : Sums add) (l : List Nat) (free : Nat) (h : free + l.sum < 2 ^ 32) :
    l.foldl (apaCalculateFreeSpace add) free = l.foldl (apaCalculateFreeSpace (· + ·)) free ∧
      l.foldl (apaCalculateFreeSpace (· + ·)) free ≤ free + l.sum := by
  induction l generalizing free with
  | nil => exact ⟨rfl, le_rfl⟩
  | cons n l ih =>
    rw [List.sum_cons] at h
    have hle := apaCalculateFreeSpace_le free n
    obtain ⟨heq, hrest⟩ := ih (apaCalculateFreeSpace (· + ·) free n) (by omega)
    rw [List.foldl_cons, List.foldl_cons, List.sum_cons, apaCalculateFreeSpace_sums hadd (by omega)]
    exact ⟨heq, by omega⟩

/-- The lengths of the free partitions. -/
def freeLengths (P : List ApaHeader) : List Nat := (P.filter fun x => x.isFree).map (·.length)

theorem freeLengths_free (hfree : x.isFree = true) (P : List ApaHeader) :
    freeLengths (x :: P) = x.length :: freeLengths P := by
  rw [freeLengths, List.filter_cons_of_pos hfree]
  rfl

theorem freeLengths_used (hused : ¬ x.isFree = true) (P : List ApaHeader) :
    freeLengths (x :: P) = freeLengths P := by
  rw [freeLengths, List.filter_cons_of_neg hused]
  rfl

private theorem foldl_sumPart (add : Nat → Nat → Nat) (P : List ApaHeader) (free sectors : Nat) :
    P.foldl (sumPart add) (free, sectors) =
      ((freeLengths P).foldl (apaCalculateFreeSpace add) free, (P.map (·.length)).foldl add sectors) := by
  induction P generalizing free sectors with
  | nil => rfl
  | cons x P ih =>
    rw [List.foldl_cons, sumPart, ih, List.map_cons, List.foldl_cons]
    congr 1
    have hiff : x.type = 0 ↔ x.isFree = true := (ApaHeader.isFree_iff x).symm
    by_cases hfree : x.isFree = true
    · rw [if_pos (hiff.mpr hfree), freeLengths_free hfree, List.foldl_cons]
    · rw [if_neg (mt hiff.mp hfree), freeLengths_used hfree]

private theorem foldl_add (hadd : Sums add) (l : List Nat) {n : Nat} (h : n + l.sum < 2 ^ 32) :
    l.foldl add n = n + l.sum := by
  induction l generalizing n with
  | nil => rfl
  | cons k l ih =>
    rw [List.sum_cons, ← Nat.add_assoc] at h
    rw [List.foldl_cons, hadd (by omega), ih h, List.sum_cons, ← Nat.add_assoc]

theorem sum_freeLengths_le (P : List ApaHeader) : (freeLengths P).sum ≤ Apa.total P :=
  (List.filter_sublist.map _).sum_le_sum fun _ _ => Nat.zero_le _

/-- All sizes that `apaGetFreeSectors` counts. -/
def counted (totalLBA : Nat) (P : List ApaHeader) : List Nat :=
  freeLengths P ++ blocks (apaGetPartitionMax totalLBA) totalLBA (Apa.total P)

theorem apaGetPartitionMax_pow (totalLBA : Nat) : (apaGetPartitionMax totalLBA).isPowerOfTwo := by
  unfold apaGetPartitionMax
  simp only
  split
  · exact ⟨_, rfl⟩
  · exact ⟨_, rfl⟩

theorem runs_reportFree_counted (hadd : Sums add) (h : Listed d P) (hend : Apa.total P ≤ totalLBA)
    (hlba : totalLBA < 2 ^ 32) :
    ∃ d', Runs (reportFree add (apaGetPartitionMax totalLBA) totalLBA) d
      (0, (counted totalLBA P).foldl (apaCalculateFreeSpace (· + ·)) 0,
        Apa.total P + (blocks (apaGetPartitionMax totalLBA) totalLBA (Apa.total P)).sum) d' := by
  obtain ⟨d', hrun, -⟩ := runs_reportFree (apaGetPartitionMax totalLBA) hadd h hlba.le
  have hroom := sum_blocks_le (apaGetPartitionMax totalLBA) totalLBA (Apa.total P)
  have hfree := sum_freeLengths_le P
  have hsum : (P.map (·.length)).foldl add 0 = Apa.total P := by
    rw [foldl_add hadd _ (by rw [Nat.zero_add]; exact lt_of_le_of_lt hend hlba), Nat.zero_add]
    rfl
  have hcounted := (foldl_apaCalculateFreeSpace hadd (counted totalLBA P) 0 (by
    rw [counted, List.sum_append]
    omega)).1
  rw [foldl_sumPart] at hrun
  simp only [hsum] at hrun
  rw [← List.foldl_append] at hrun
  rw [← hcounted]
  exact ⟨d', hrun⟩

/-- The report of `apaGetFreeSectors` never overstates. -/
theorem apaGetFreeSectors_bounded (h : Listed d P) (hend : Apa.total P ≤ totalLBA)
    (hlba : totalLBA < 2 ^ 32) :
    ∃ free sectors d', Runs (apaGetFreeSectors (apaGetPartitionMax totalLBA) totalLBA) d (0, free, sectors) d' ∧
      (∃ d'', Runs (reportFree (· + ·) (apaGetPartitionMax totalLBA) totalLBA) d (0, free, sectors) d'') ∧
        sectors < 2 ^ 32 ∧ free < 2 ^ 32 ∧
          free ≤ Apa.total (P.filter fun x => x.isFree) + (totalLBA - Apa.total P) ∧
            free = (counted totalLBA P).foldl (apaCalculateFreeSpace (· + ·)) 0 ∧
              ∀ A b B, blocks (apaGetPartitionMax totalLBA) totalLBA (Apa.total P) = A ++ b :: B →
                b.isPowerOfTwo ∧ 0x40000 ≤ b ∧ b ≤ apaGetPartitionMax totalLBA ∧
                  b ∣ Apa.total P + A.sum ∧ Apa.total P + A.sum + b < totalLBA := by
  obtain ⟨d', hrun⟩ := runs_reportFree_counted sums_add32 h hend hlba
  have hexact := runs_reportFree_counted sums_add h hend hlba
  have hroom := sum_blocks_le (apaGetPartitionMax totalLBA) totalLBA (Apa.total P)
  have hfree := sum_freeLengths_le P
  have hsum : (counted totalLBA P).sum = (freeLengths P).sum +
      (blocks (apaGetPartitionMax totalLBA) totalLBA (Apa.total P)).sum := List.sum_append
  have hle := (foldl_apaCalculateFreeSpace sums_add (counted totalLBA P) 0 (by omega)).2
  rw [Nat.zero_add] at hle
  have htotal : Apa.total (P.filter fun x => x.isFree) = (freeLengths P).sum := rfl
  refine ⟨_, _, d', hrun, hexact, by omega, by omega, by omega, rfl, fun A b B heq => ?_⟩
  exact blocks_spec (apaGetPartitionMax_pow totalLBA) heq

/-- An empty partition behind the MBR. -/
def spareParts : List ApaHeader := [mbrHeader, plainHeader 0x40000 0x40000 APA_TYPE_FREE]

private theorem spareParts_tiles : Apa.Tiles 0 spareParts :=
  ⟨rfl, part_mbr, rfl, part_plain ⟨⟨18, rfl⟩, by decide⟩ (by decide) (by decide) (by decide), trivial⟩

theorem listed_boot (htiles : Apa.Tiles 0 P) (hbody : ∀ x ∈ P, x.body = x) (hne : P ≠ []) :
    Listed (Device.boot (tableDisk P)) P :=
  ⟨ring_tableDisk htiles hbody, htiles, hne⟩

theorem apaGetFreeSectors_bounded_spare :
    ∃ free sectors d', Runs (apaGetFreeSectors (apaGetPartitionMax 0x200000) 0x200000)
      (Device.boot (tableDisk spareParts)) (0, free, sectors) d' ∧ free ≤ 0x40000 + 0x180000 := by
  have hlisted := listed_boot spareParts_tiles (by decide) (List.cons_ne_nil _ _)
  obtain ⟨free, sectors, d', hrun, -, -, -, hle, -⟩ :=
    apaGetFreeSectors_bounded hlisted (show Apa.total spareParts ≤ 0x200000 by decide) (by decide)
  exact ⟨free, sectors, d', hrun, hle⟩

end HddChecker.Hdsk
