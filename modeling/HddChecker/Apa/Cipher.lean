import HddChecker.Apa.Password
import HddChecker.Lib.Feistel
import Mathlib.Data.List.Induction
import Mathlib.Tactic.IntervalCases

/-!
# The cipher of the passwords

What `select` finds, bit for bit, and from it the whole of `DESEncryptPassword`: every key of a round is a selection of bits of the password, the rounds are a Feistel network, and what follows for the encrypted passwords.
-/

namespace HddChecker.Apa.Password

/-! ### Bits -/

/-- The bit at the place `n`, from the highest one on. -/
def KeyPair.bit (x : KeyPair) (n : Nat) : Bool := if n < 32 then x.hi.getMsbD n else x.lo.getMsbD (n - 32)

instance : XorOp KeyPair := ⟨fun x y => ⟨x.lo ^^^ y.lo, x.hi ^^^ y.hi⟩⟩

variable {x y id id' password password' : KeyPair} {table : List Nat} {n e : Nat}

theorem KeyPair.xor_def : x ^^^ y = ⟨x.lo ^^^ y.lo, x.hi ^^^ y.hi⟩ := rfl

theorem KeyPair.bit_xor : (x ^^^ y).bit n = (x.bit n ^^ y.bit n) := by
  unfold KeyPair.bit
  rw [KeyPair.xor_def]
  split <;> exact BitVec.getMsbD_xor

private theorem bit_or {lo hi : BitVec 32} :
    (⟨x.lo ||| lo, x.hi ||| hi⟩ : KeyPair).bit n = (x.bit n || (⟨lo, hi⟩ : KeyPair).bit n) := by
  unfold KeyPair.bit
  split <;> exact BitVec.getMsbD_or

theorem KeyPair.eq_of_bit (h : ∀ n < 64, x.bit n = y.bit n) : x = y := by
  obtain ⟨xlo, xhi⟩ := x
  obtain ⟨ylo, yhi⟩ := y
  have hhi : xhi = yhi := BitVec.eq_of_getMsbD_eq fun n hn => by
    simpa [KeyPair.bit, hn] using h n (by omega)
  have hlo : xlo = ylo := BitVec.eq_of_getMsbD_eq fun n hn => by
    simpa [KeyPair.bit] using h (n + 32) (by omega)
  rw [hhi, hlo]

/-- The mask of the bit at the place `n`. -/
def maskOf (n : Nat) : KeyPair :=
  if n < 32 then ⟨0, (0x80000000 : BitVec 32) >>> n⟩ else ⟨(0x80000000 : BitVec 32) >>> (n - 32), 0⟩

private theorem shiftedMask_eq (hn : n < 64) : shiftedMask n = maskOf n := by
  have hall : ∀ k : Fin 64, shiftedMask k = maskOf k := by decide +kernel
  exact hall ⟨n, hn⟩

private theorem maskOf_succ (hn : n < 64) :
    ⟨((maskOf n).lo >>> 1) ||| ((maskOf n).hi <<< 31), (maskOf n).hi >>> 1⟩ = maskOf (n + 1) := by
  have hall : ∀ k : Fin 64,
      ⟨((maskOf k).lo >>> 1) ||| ((maskOf k).hi <<< 31), (maskOf k).hi >>> 1⟩ = maskOf (k + 1) := by
    decide +kernel
  exact hall ⟨n, hn⟩

private theorem bit_maskOf {k : Nat} (hn : n < 64) (hk : k < 64) : (maskOf n).bit k = decide (k = n) := by
  have hall : ∀ a b : Fin 64, (maskOf a).bit b = decide (b.val = a.val) := by decide +kernel
  exact hall ⟨n, hn⟩ ⟨k, hk⟩

theorem and_mask {w : BitVec 32} (hn : n < 32) : w &&& ((0x80000000 : BitVec 32) >>> n) ≠ 0 ↔ w.getMsbD n = true := by
  have hall : ∀ k : Fin 32, (0x80000000 : BitVec 32) >>> k.val = BitVec.twoPow 32 (31 - k) := by decide +kernel
  have hmask : (0x80000000 : BitVec 32) >>> n = BitVec.twoPow 32 (31 - n) := hall ⟨n, hn⟩
  rw [hmask, BitVec.and_twoPow, BitVec.getMsbD_eq_getLsbD]
  have hne : BitVec.twoPow 32 (31 - n) ≠ 0 := by
    rw [← hmask]
    have hall : ∀ k : Fin 32, (0x80000000 : BitVec 32) >>> k.val ≠ 0 := by decide +kernel
    exact hall ⟨n, hn⟩
  cases hbit : w.getLsbD (31 - n)
  · simp [hn]
  · simpa [hn] using hne

private theorem mask_found (hn : n < 64) :
    (x.lo &&& (shiftedMask n).lo) ||| (x.hi &&& (shiftedMask n).hi) ≠ 0 ↔ x.bit n = true := by
  rw [shiftedMask_eq hn]
  unfold maskOf KeyPair.bit
  by_cases hlow : n < 32
  · simp only [if_pos hlow]
    rw [← and_mask hlow]
    simp
  · simp only [if_neg hlow]
    rw [← and_mask (by omega)]
    simp

/-! ### Selections -/

/-- The entries of a table are places of bits, and there are no more of them than there are bits. -/
def Places (table : List Nat) : Prop := table.length ≤ 64 ∧ ∀ e ∈ table, 1 ≤ e ∧ e ≤ 64

instance : Decidable (Places table) := inferInstanceAs (Decidable (_ ∧ _))

/-- A pass sets the bit at the place of the pass, and moves on to the next one. -/
private theorem selectBit_bit (out : KeyPair) (hn : n < 64) (he : 1 ≤ e ∧ e ≤ 64) :
    (selectBit x (out, maskOf n) e).2 = maskOf (n + 1) ∧
      ∀ k < 64, (selectBit x (out, maskOf n) e).1.bit k = (out.bit k || (decide (k = n) && x.bit (e - 1))) := by
  have hfound := mask_found (x := x) (n := e - 1) (by omega)
  rw [show ((e - 1 : Nat) : Int) = (e : Int) - 1 by omega] at hfound
  refine ⟨maskOf_succ hn, fun k hk => ?_⟩
  unfold selectBit
  simp only [hfound]
  split
  next hbit => rw [bit_or, bit_maskOf hn hk, hbit, Bool.and_true]
  next hbit => rw [Bool.eq_false_iff.mpr hbit, Bool.and_false, Bool.or_false]

private theorem select_places (htable : Places table) :
    (table.foldl (selectBit x) (⟨0, 0⟩, ⟨0, 0x80000000⟩)).2 = maskOf table.length ∧
      ∀ n < 64, (select table x).bit n = (table[n]?.any fun e => x.bit (e - 1)) := by
  -- the loop is followed from its end, with the entries before the last one already taken
  induction table using List.reverseRecOn with
  | nil =>
    refine ⟨rfl, fun n hn => ?_⟩
    have hall : ∀ k : Fin 64, KeyPair.bit ⟨0, 0⟩ k = false := by decide +kernel
    exact hall ⟨n, hn⟩
  | append_singleton table e ih =>
    obtain ⟨hlength, hentries⟩ := htable
    rw [List.length_append, List.length_singleton] at hlength
    obtain ⟨hmask, hbits⟩ := ih ⟨by omega, fun e he => hentries e (List.mem_append_left _ he)⟩
    unfold select at hbits ⊢
    rw [List.foldl_append, List.foldl_cons, List.foldl_nil, List.length_append, List.length_singleton]
    generalize table.foldl (selectBit x) (⟨0, 0⟩, ⟨0, 0x80000000⟩) = state at hmask hbits ⊢
    obtain ⟨out, BitPerm⟩ := state
    obtain rfl : BitPerm = maskOf table.length := hmask
    obtain ⟨hnext, hpass⟩ := selectBit_bit (x := x) out (n := table.length) (by omega)
      (hentries e (List.mem_append_right _ List.mem_cons_self))
    refine ⟨hnext, fun n hn => ?_⟩
    rw [hpass n hn, hbits n hn]
    rcases Nat.lt_trichotomy n table.length with hlt | rfl | hgt
    · rw [List.getElem?_append_left hlt, decide_eq_false (Nat.ne_of_lt hlt), Bool.false_and, Bool.or_false]
    · rw [List.getElem?_append_right (Nat.le_refl _), Nat.sub_self, List.getElem?_eq_none (Nat.le_refl _),
        decide_eq_true rfl]
      rfl
    · rw [List.getElem?_eq_none (Nat.le_of_lt hgt), decide_eq_false (Nat.ne_of_gt hgt),
        List.getElem?_eq_none (by rw [List.length_append, List.length_singleton]; omega)]
      rfl

theorem select_bit (htable : Places table) (hn : n < 64) :
    (select table x).bit n = (table[n]?.any fun e => x.bit (e - 1)) := (select_places htable).2 n hn

private theorem select_congr (htable : Places table) (h : ∀ e ∈ table, x.bit (e - 1) = y.bit (e - 1)) :
    select table x = select table y := by
  refine KeyPair.eq_of_bit fun n hn => ?_
  rw [select_bit htable hn, select_bit htable hn]
  cases hentry : table[n]? with
  | none => rfl
  | some e => exact h e (List.mem_of_getElem? hentry)

theorem select_xor (htable : Places table) : select table (x ^^^ y) = select table x ^^^ select table y := by
  refine KeyPair.eq_of_bit fun n hn => ?_
  rw [KeyPair.bit_xor, select_bit htable hn, select_bit htable hn, select_bit htable hn]
  cases table[n]? with
  | none => rfl
  | some e => exact KeyPair.bit_xor

private theorem select_select {places : Nat → Nat} (htable : Places table) (hplaces : Places (table.map places))
    (h : ∀ e ∈ table, y.bit (e - 1) = x.bit (places e - 1)) : select table y = select (table.map places) x := by
  refine KeyPair.eq_of_bit fun n hn => ?_
  rw [select_bit htable hn, select_bit hplaces hn, List.getElem?_map]
  cases hentry : table[n]? with
  | none => rfl
  | some e => exact h e (List.mem_of_getElem? hentry)

/-! ### The keys of the rounds -/

/-- The bit of the password that the bit `n` of the permuted key is, after `t` rotations. -/
def keyPlace (t n : Nat) : Nat :=
  if n < 28 then PC1.getD ((n + t) % 28) 0 else PC1.getD (28 + (n - 28 + t) % 28) 0

/-- The bits of the password that the key of a round consists of. -/
def keyTable (t : Nat) : List Nat := PC2.map fun e => keyPlace t (e - 1)

def keyTables : List Nat → Nat → List (List Nat)
  | [], _ => []
  | rotation :: rotations, t => keyTable (t + rotation) :: keyTables rotations (t + rotation)

/-- The halves of the permuted key after `t` rotations. -/
structure Halves (password : KeyPair) (t : Nat) (C D : KeyPair) : Prop where
  C_hi : C.hi = 0
  D_hi : D.hi = 0
  D_top : ∀ n, 28 ≤ n → D.lo.getLsbD n = false
  C_bit : ∀ n < 28, C.lo.getLsbD (27 - n) = password.bit (keyPlace t n - 1)
  D_bit : ∀ n < 28, D.lo.getLsbD (27 - n) = password.bit (keyPlace t (28 + n) - 1)

theorem rotate_hi {p : KeyPair} {r : Nat} : (rotate r p).hi = 0 := by
  unfold rotate
  split <;> exact BitVec.and_zero

theorem masked_top {w : BitVec 32} (hn : 28 ≤ n) : (w &&& 0x0FFFFFFF).getLsbD n = false := by
  have hmask : (0x0FFFFFFF : BitVec 32).getLsbD n = false := by
    rcases Nat.lt_or_ge n 32 with hlt | hge
    · interval_cases n <;> rfl
    · exact BitVec.getLsbD_of_ge _ _ hge
  rw [BitVec.getLsbD_and, hmask, Bool.and_false]

private theorem rotate_top {p : KeyPair} {r : Nat} (hn : 28 ≤ n) : (rotate r p).lo.getLsbD n = false := by
  unfold rotate
  split <;> exact masked_top hn

theorem rotate_bit {p : KeyPair} {r : Nat} (hhi : p.hi = 0) (hr : r = 1 ∨ r = 2) (hn : n < 28) :
    (rotate r p).lo.getLsbD (27 - n) = p.lo.getLsbD (27 - (n + r) % 28) := by
  obtain ⟨lo, hi⟩ := p
  obtain rfl : hi = 0 := hhi
  rcases hr with rfl | rfl <;> interval_cases n <;> simp [rotate]

/-- The bits of the joined halves, from the first one on. -/
private theorem joinHalves_half {Clo Dlo : BitVec 32} (htop : ∀ n, 28 ≤ n → Dlo.getLsbD n = false) (hn : n < 56) :
    (joinHalves ⟨Clo, 0⟩ ⟨Dlo, 0⟩).bit n = if n < 28 then Clo.getLsbD (27 - n) else Dlo.getLsbD (27 - (n - 28)) := by
  unfold KeyPair.bit joinHalves
  rcases Nat.lt_or_ge n 28 with hC | hD
  · rw [if_pos (by omega), if_pos hC, BitVec.getMsbD_eq_getLsbD]
    have htop' := htop (24 + (31 - n)) (by omega)
    have hshift : ¬ 31 - n < 4 := by omega
    have hplace : 31 - n - 4 = 27 - n := by omega
    simp [htop', hshift, hplace, show n < 32 by omega, show 31 - n < 32 by omega]
    exact (BitVec.getLsbD_eq_getElem _).symm
  · rw [if_neg (Nat.not_lt.mpr hD)]
    -- the first four bits of the right half stand in the higher word
    rcases Nat.lt_or_ge n 32 with hhi | hlo
    · rw [if_pos hhi, BitVec.getMsbD_eq_getLsbD]
      have hshift : 31 - n < 4 := by omega
      have hplace : 24 + (31 - n) = 27 - (n - 28) := by omega
      simp [hshift, hhi, hplace]
    · rw [if_neg (Nat.not_lt.mpr hlo), BitVec.getMsbD_eq_getLsbD]
      have hshift : ¬ 31 - (n - 32) < 8 := by omega
      have hplace : 31 - (n - 32) - 8 = 27 - (n - 28) := by omega
      simp [hshift, hplace, show n - 32 < 32 by omega, show 31 - (n - 32) < 32 by omega]
      exact (BitVec.getLsbD_eq_getElem _).symm

private theorem joinHalves_bit {C D : KeyPair} {t : Nat} (h : Halves password t C D) (hn : n < 56) :
    (joinHalves C D).bit n = password.bit (keyPlace t n - 1) := by
  obtain ⟨Clo, Chi⟩ := C
  obtain ⟨Dlo, Dhi⟩ := D
  obtain ⟨hChi, hDhi, htop, hC, hD⟩ := h
  obtain rfl : Chi = 0 := hChi
  obtain rfl : Dhi = 0 := hDhi
  rw [joinHalves_half htop hn]
  split
  next hleft => exact hC n hleft
  next hright => rw [hD (n - 28) (by omega), Nat.add_sub_cancel' (Nat.le_of_not_lt hright)]

theorem keyPlace_rotate {t r : Nat} (hn : n < 28) :
    keyPlace t ((n + r) % 28) = keyPlace (t + r) n ∧ keyPlace t (28 + (n + r) % 28) = keyPlace (t + r) (28 + n) := by
  have hplace : ((n + r) % 28 + t) % 28 = (n + (t + r)) % 28 := by omega
  unfold keyPlace
  rw [if_pos (Nat.mod_lt _ (by decide)), if_pos hn, if_neg (by omega), if_neg (by omega), Nat.add_sub_cancel_left,
    Nat.add_sub_cancel_left, hplace]
  exact ⟨rfl, rfl⟩

theorem Halves.rotate {C D : KeyPair} {t r : Nat} (h : Halves password t C D) (hr : r = 1 ∨ r = 2) :
    Halves password (t + r) (rotate r C) (rotate r D) where
  C_hi := rotate_hi
  D_hi := rotate_hi
  D_top _ hn := rotate_top hn
  C_bit n hn := by
    rw [rotate_bit h.C_hi hr hn, h.C_bit _ (Nat.mod_lt _ (by decide)), (keyPlace_rotate hn).1]
  D_bit n hn := by
    rw [rotate_bit h.D_hi hr hn, h.D_bit _ (Nat.mod_lt _ (by decide)), (keyPlace_rotate hn).2]

/-- The places of the password that a key of a round is read from: 48 of them, and none with the lowest bit of a byte. -/
theorem keyTable_places (t : Nat) : Places (keyTable t) ∧ (keyTable t).length = 48 ∧ ∀ e ∈ keyTable t, e % 8 ≠ 0 := by
  have hall : ∀ s : Fin 28, Places (keyTable s) ∧ (keyTable s).length = 48 ∧ ∀ e ∈ keyTable s, e % 8 ≠ 0 := by
    decide +kernel
  have hmod : keyTable t = keyTable (t % 28) := by
    refine List.map_congr_left fun e _ => ?_
    unfold keyPlace
    rw [Nat.add_mod_mod, Nat.add_mod_mod]
  rw [hmod]
  exact hall ⟨t % 28, Nat.mod_lt _ (by decide)⟩

theorem keyTables_mem {rotations : List Nat} {t : Nat} (h : table ∈ keyTables rotations t) : ∃ s, table = keyTable s := by
  induction rotations generalizing t with
  | nil => cases h
  | cons r rotations ih =>
    rcases List.mem_cons.mp h with rfl | hrest
    · exact ⟨_, rfl⟩
    · exact ih hrest

theorem PC2_places : Places PC2 ∧ ∀ e ∈ PC2, e ≤ 56 := by decide

private theorem roundKeys_eq {rotations : List Nat} {C D : KeyPair} {t : Nat} (h : Halves password t C D)
    (hrotations : ∀ r ∈ rotations, r = 1 ∨ r = 2) :
    roundKeys rotations C D = (keyTables rotations t).map fun table => select table password := by
  induction rotations generalizing t C D with
  | nil => rfl
  | cons r rotations ih =>
    have hnext := h.rotate (hrotations r List.mem_cons_self)
    unfold roundKeys keyTables
    rw [List.map_cons, ih hnext fun r hr => hrotations r (List.mem_cons_of_mem _ hr)]
    congr 1
    refine select_select PC2_places.1 (keyTable_places _).1 fun e he => ?_
    exact joinHalves_bit hnext (by have := PC2_places.2 e he; have := (PC2_places.1.2 e he).1; omega)

private theorem PC1_places : Places PC1 := by decide

private theorem firstC_bit (hn : n < 28) : (firstC x).lo.getLsbD (27 - n) = x.bit n := by
  unfold firstC KeyPair.bit
  rw [if_pos (by omega), BitVec.getMsbD_eq_getLsbD, BitVec.getLsbD_ushiftRight]
  have hplace : 4 + (27 - n) = 31 - n := by omega
  simp [hplace, show n < 32 by omega]

private theorem firstD_bit (hn : n < 28) : (firstD x).lo.getLsbD (27 - n) = x.bit (28 + n) := by
  unfold firstD KeyPair.bit
  simp only [BitVec.getMsbD_eq_getLsbD]
  interval_cases n <;> simp

theorem permuted_bit (hn : n < 56) : (select PC1 password).bit n = password.bit (keyPlace 0 n - 1) := by
  have hall : ∀ k : Fin 56, PC1[k.val]? = some (keyPlace 0 k) := by decide
  rw [select_bit PC1_places (by omega), hall ⟨n, hn⟩]
  rfl

private theorem halves_first (password : KeyPair) :
    Halves password 0 (firstC (select PC1 password)) (firstD (select PC1 password)) where
  C_hi := rfl
  D_hi := BitVec.and_zero
  D_top _ hn := masked_top hn
  C_bit n hn := by
    rw [firstC_bit hn, permuted_bit (by omega)]
  D_bit n hn := by
    rw [firstD_bit hn, permuted_bit (by omega)]

theorem pairK_eq (password : KeyPair) :
    pairK password = (keyTables Rotations 0).map fun table => select table password :=
  roundKeys_eq (halves_first password) (by decide)

/-! ### The rounds -/

/-- What a round mixes into the left half. -/
def mixed (R : BitVec 32) (K : KeyPair) : BitVec 32 := (cipherFunction ⟨0, R⟩ K).hi

private theorem cipherFunction_lo {R K : KeyPair} : (cipherFunction R K).lo = 0 := by
  refine BitVec.eq_of_getMsbD_eq fun n hn => ?_
  have hplaces : Places Permutation := by decide
  have hbit := select_bit (x := ((List.range 8).foldl substituteBox (mixKey (select Expansion R) K, ⟨0, 0⟩)).2)
    hplaces (n := n + 32) (by omega)
  rw [List.getElem?_eq_none (Nat.le_add_left 32 n)] at hbit
  unfold KeyPair.bit at hbit
  rw [if_neg (by omega), Nat.add_sub_cancel] at hbit
  exact hbit.trans BitVec.getMsbD_zero.symm

private theorem rounds_eq (keys : List KeyPair) (L R : BitVec 32) :
    keys.foldl cipherRound (⟨0, L⟩, ⟨0, R⟩) =
      (⟨0, (Feistel.run (· ^^^ ·) mixed keys (L, R)).1⟩, ⟨0, (Feistel.run (· ^^^ ·) mixed keys (L, R)).2⟩) := by
  induction keys generalizing L R with
  | nil => rfl
  | cons K keys ih =>
    have hround : cipherRound (⟨0, L⟩, ⟨0, R⟩) K = (⟨0, R⟩, ⟨0, L ^^^ mixed R K⟩) := by
      unfold cipherRound mixed
      simp only [cipherFunction_lo]
      rfl
    rw [List.foldl_cons, hround, ih]
    rfl

/-- The halves of a value of 64 bits, the higher one first, and back, the second one higher. -/
def halves (x : KeyPair) : BitVec 32 × BitVec 32 := (x.hi, x.lo)

def crossed (y : BitVec 32 × BitVec 32) : KeyPair := ⟨y.1, y.2⟩

theorem DESEncryptPassword_eq (id password : KeyPair) : DESEncryptPassword id password =
    select FP (crossed (Feistel.run (· ^^^ ·) mixed (pairK password) (halves (select IP id)))) := by
  unfold DESEncryptPassword
  have hL : (select IP id).hi &&& 0xFFFFFFFF = (select IP id).hi := BitVec.and_allOnes
  have hR : (select IP id).lo <<< 0 = (select IP id).lo := BitVec.shiftLeft_zero _
  have hzero : (select IP id).lo &&& 0 = 0 := BitVec.and_zero
  simp only [hL, hR, hzero, rounds_eq]
  unfold crossed halves
  simp

theorem IP_places : Places IP := by decide

theorem FP_places : Places FP := by decide

theorem select_FP_IP : select FP (select IP x) = x := by
  refine KeyPair.eq_of_bit fun n hn => ?_
  have hall : ∀ k : Fin 64, FP[k.val]?.bind (fun e => IP[e - 1]?) = some (k.val + 1) := by decide
  have hback := hall ⟨n, hn⟩
  obtain ⟨e, hFP, hIP⟩ := Option.bind_eq_some_iff.mp hback
  have he := FP_places.2 e (List.mem_of_getElem? hFP)
  rw [select_bit FP_places hn, hFP, Option.any_some, select_bit IP_places (by omega), hIP]
  rfl

theorem select_IP_FP : select IP (select FP x) = x := by
  refine KeyPair.eq_of_bit fun n hn => ?_
  have hall : ∀ k : Fin 64, IP[k.val]?.bind (fun e => FP[e - 1]?) = some (k.val + 1) := by decide
  have hback := hall ⟨n, hn⟩
  obtain ⟨e, hIP, hFP⟩ := Option.bind_eq_some_iff.mp hback
  have he := IP_places.2 e (List.mem_of_getElem? hIP)
  rw [select_bit IP_places hn, hIP, Option.any_some, select_bit FP_places (by omega), hFP]
  rfl

theorem xor_undone (a b : BitVec 32) : (a ^^^ b) ^^^ b = a := by
  rw [BitVec.xor_assoc, BitVec.xor_self, BitVec.xor_zero]

private theorem DESEncryptPassword_reverse (hkeys : pairK password' = (pairK password).reverse) :
    DESEncryptPassword (DESEncryptPassword id password) password' = id := by
  rw [DESEncryptPassword_eq id password, DESEncryptPassword_eq, select_IP_FP, hkeys]
  have hback := Feistel.run_reverse (f := mixed) xor_undone (pairK password) (halves (select IP id))
  have hcross : ∀ y, halves (crossed y) = y.swap := fun _ => rfl
  have hswap : ∀ y : BitVec 32 × BitVec 32, crossed y = ⟨y.swap.2, y.swap.1⟩ := fun _ => rfl
  rw [hcross, hswap, hback]
  exact select_FP_IP

private theorem DESEncryptPassword_injective (password : KeyPair) :
    Function.Injective fun id => DESEncryptPassword id password := by
  intro id id' heq
  simp only [DESEncryptPassword_eq] at heq
  have hcross := congrArg (select IP) heq
  rw [select_IP_FP, select_IP_FP] at hcross
  have hrun : Feistel.run (· ^^^ ·) mixed (pairK password) (halves (select IP id)) =
      Feistel.run (· ^^^ ·) mixed (pairK password) (halves (select IP id')) :=
    Prod.ext (congrArg KeyPair.lo hcross) (congrArg KeyPair.hi hcross)
  have hhalves := Feistel.run_injective xor_undone (pairK password) hrun
  have hIP : select IP id = select IP id' := by
    have hlo := congrArg Prod.snd hhalves
    have hhi := congrArg Prod.fst hhalves
    exact (KeyPair.mk.injEq ..).mpr ⟨hlo, hhi⟩
  rw [← select_FP_IP (x := id), hIP, select_FP_IP]

/-! ### Complements -/

def ones : KeyPair := ⟨0xFFFFFFFF, 0xFFFFFFFF⟩

/-- The bits of a key of a round. -/
def ones48 : KeyPair := ⟨0xFFFF0000, 0xFFFFFFFF⟩

private theorem keyTable_ones (t : Nat) : select (keyTable t) ones = ones48 := by
  obtain ⟨hplaces, hlength, -⟩ := keyTable_places t
  refine KeyPair.eq_of_bit fun n hn => ?_
  have hones : ∀ k : Fin 64, ones.bit k = true := by decide +kernel
  have hones48 : ∀ k : Fin 64, ones48.bit k = decide (k.val < 48) := by decide +kernel
  rw [select_bit hplaces hn, hones48 ⟨n, hn⟩]
  rcases Nat.lt_or_ge n 48 with hlt | hge
  · rw [← hlength] at hlt
    have he := hplaces.2 _ (List.getElem_mem hlt)
    rw [List.getElem?_eq_getElem hlt, Option.any_some, hones ⟨(keyTable t)[n] - 1, by omega⟩, ← hlength]
    exact (decide_eq_true hlt).symm
  · rw [List.getElem?_eq_none (hlength.symm ▸ hge)]
    exact (decide_eq_false (Nat.not_lt.mpr hge)).symm

private theorem pairK_ones (password : KeyPair) : pairK (password ^^^ ones) = (pairK password).map (· ^^^ ones48) := by
  rw [pairK_eq, pairK_eq, List.map_map]
  refine List.map_congr_left fun table htable => ?_
  obtain ⟨t, rfl⟩ := keyTables_mem htable
  rw [select_xor (keyTable_places t).1, keyTable_ones]
  rfl

/-- A round does not see that the half and the key are complemented together. -/
private theorem mixed_ones (R : BitVec 32) (K : KeyPair) : mixed (R ^^^ 0xFFFFFFFF) (K ^^^ ones48) = mixed R K := by
  have hplaces : Places Expansion := by decide
  have hones : select Expansion ⟨0, 0xFFFFFFFF⟩ = ones48 := by decide +kernel
  have hexpand : select Expansion ⟨0, R ^^^ 0xFFFFFFFF⟩ = select Expansion ⟨0, R⟩ ^^^ ones48 := by
    rw [← hones, ← select_xor hplaces]
    simp [KeyPair.xor_def]
  have hcancel : ∀ a b c : BitVec 32, (a ^^^ c) ^^^ (b ^^^ c) = a ^^^ b := fun a b c => by
    rw [BitVec.xor_comm b c, ← BitVec.xor_assoc, xor_undone]
  have hkey : mixKey (select Expansion ⟨0, R⟩ ^^^ ones48) (K ^^^ ones48) = mixKey (select Expansion ⟨0, R⟩) K := by
    unfold mixKey
    simp only [KeyPair.xor_def, hcancel]
  unfold mixed cipherFunction
  rw [hexpand, hkey]

private theorem DESEncryptPassword_ones (id password : KeyPair) :
    DESEncryptPassword (id ^^^ ones) (password ^^^ ones) = DESEncryptPassword id password ^^^ ones := by
  have hIP : select IP ones = ones := by decide +kernel
  have hFP : select FP ones = ones := by decide +kernel
  have hmix : ∀ a b : BitVec 32, (a ^^^ 0xFFFFFFFF) ^^^ b = (a ^^^ b) ^^^ 0xFFFFFFFF := fun a b => by
    rw [BitVec.xor_assoc, BitVec.xor_comm _ b, BitVec.xor_assoc]
  rw [DESEncryptPassword_eq, DESEncryptPassword_eq, select_xor IP_places, hIP, pairK_ones]
  have hrun := Feistel.run_changed (g := (· ^^^ 0xFFFFFFFF)) (h := (· ^^^ ones48)) (pairK password) hmix mixed_ones
    (halves (select IP id))
  have hhalves : halves (select IP id ^^^ ones) =
      ((halves (select IP id)).1 ^^^ 0xFFFFFFFF, (halves (select IP id)).2 ^^^ 0xFFFFFFFF) := rfl
  rw [hhalves, hrun]
  have hcross : ∀ y : BitVec 32 × BitVec 32,
      crossed (y.1 ^^^ 0xFFFFFFFF, y.2 ^^^ 0xFFFFFFFF) = crossed y ^^^ ones := fun _ => rfl
  rw [hcross, select_xor FP_places, hFP]

/-! ### Strings -/

variable {s s' : Nat → UInt8} {k : Nat}

private theorem append_bit (x y z w : BitVec 8) : (x ++ y ++ z ++ w).getMsbD n = if n < 8 then x.getMsbD n
    else if n < 16 then y.getMsbD (n - 8) else if n < 24 then z.getMsbD (n - 16) else w.getMsbD (n - 24) := by
  simp only [BitVec.getMsbD_append]
  grind

theorem word_bit {o : Nat} (hn : n < 32) :
    (word s o).getMsbD n = (s (o + (3 - n / 8))).toBitVec.getMsbD (n % 8) := by
  refine (append_bit _ _ _ _).trans ?_
  split
  next h => rw [show n / 8 = 0 by omega, show n % 8 = n by omega]
  split
  next h => rw [show n / 8 = 1 by omega, show n % 8 = n - 8 by omega]
  split
  next h => rw [show n / 8 = 2 by omega, show n % 8 = n - 16 by omega]
  next h => rw [show n / 8 = 3 by omega, show n % 8 = n - 24 by omega, Nat.sub_self, Nat.add_zero]

theorem words_bit (hn : n < 64) : (words s).bit n = (s (7 - n / 8)).toBitVec.getMsbD (n % 8) := by
  unfold KeyPair.bit words
  split
  next hhi => rw [word_bit hhi, show 4 + (3 - n / 8) = 7 - n / 8 by omega]
  next hlo => rw [word_bit (by omega), show 0 + (3 - (n - 32) / 8) = 7 - n / 8 by omega, show (n - 32) % 8 = n % 8 by omega]

theorem byte_eq {a b : UInt8} (h : ∀ j < 8, a.toBitVec.getMsbD j = b.toBitVec.getMsbD j) : a = b :=
  UInt8.eq_of_toBitVec_eq (BitVec.eq_of_getMsbD_eq h)

theorem words_eq_iff : words s = words s' ↔ ∀ k < 8, s k = s' k := by
  constructor
  · intro heq k hk
    refine byte_eq fun j hj => ?_
    have hbit := congrArg (KeyPair.bit · (8 * (7 - k) + j)) heq
    simp only [words_bit (s := s) (n := 8 * (7 - k) + j) (by omega),
      words_bit (s := s') (n := 8 * (7 - k) + j) (by omega)] at hbit
    rwa [show 7 - (8 * (7 - k) + j) / 8 = k by omega, show (8 * (7 - k) + j) % 8 = j by omega] at hbit
  · intro heq
    refine KeyPair.eq_of_bit fun n hn => ?_
    rw [words_bit hn, words_bit hn, heq _ (by omega)]

theorem byte_bit {w : BitVec 32} {j : Nat} (hk : k < 4) (hj : j < 8) :
    ((w >>> (8 * k)).setWidth 8).getMsbD j = w.getMsbD (8 * (3 - k) + j) := by
  rw [BitVec.getMsbD_eq_getLsbD, BitVec.getMsbD_eq_getLsbD, BitVec.getLsbD_setWidth, BitVec.getLsbD_ushiftRight,
    decide_eq_true hj, decide_eq_true (show 8 * (3 - k) + j < 32 by omega),
    decide_eq_true (show 8 - 1 - j < 8 by omega), show 8 * k + (8 - 1 - j) = 32 - 1 - (8 * (3 - k) + j) by omega]
  rfl

theorem bytes_getD {w : BitVec 32} (hk : k < 4) : (bytes w).getD k 0 = ⟨(w >>> (8 * k)).setWidth 8⟩ := by
  simp [bytes, hk]

private theorem bytes_append {x : KeyPair} (hk : k < 8) : (bytes x.lo ++ bytes x.hi).getD k 0 =
    if k < 4 then ⟨(x.lo >>> (8 * k)).setWidth 8⟩ else ⟨(x.hi >>> (8 * (k - 4))).setWidth 8⟩ := by
  have hlength : (bytes x.lo).length = 4 := by simp [bytes]
  rw [List.getD_eq_getElem?_getD, List.getElem?_append, hlength]
  split
  next hlo => rw [← List.getD_eq_getElem?_getD, bytes_getD hlo]
  next hhi => rw [← List.getD_eq_getElem?_getD, bytes_getD (by omega)]

/-- A value of 64 bits is read back from its bytes. -/
theorem words_bytes (x : KeyPair) : words ((bytes x.lo ++ bytes x.hi).getD · 0) = x := by
  refine KeyPair.eq_of_bit fun n hn => ?_
  rw [words_bit hn]
  unfold KeyPair.bit
  rw [bytes_append (by omega)]
  split
  next hhi =>
    rw [if_neg (by omega), byte_bit (by omega) (by omega)]
    congr 1
    omega
  next hlo =>
    rw [if_pos (by omega), byte_bit (by omega) (by omega)]
    congr 1
    omega

private theorem bytes_injective {x y : KeyPair} (h : bytes x.lo ++ bytes x.hi = bytes y.lo ++ bytes y.hi) : x = y := by
  rw [← words_bytes x, h, words_bytes]

/-- Encrypted with one password, names stay apart: the results are equal only if the first eight bytes of the names are. -/
theorem apaEncryptPassword_eq_iff (id id' password : Nat → UInt8) :
    apaEncryptPassword id password = apaEncryptPassword id' password ↔ ∀ k < 8, id k = id' k := by
  rw [← words_eq_iff]
  constructor
  · intro heq
    exact DESEncryptPassword_injective (words password) (bytes_injective heq)
  · intro heq
    unfold apaEncryptPassword
    rw [heq]

/-- The keys of the password of null characters are their own reverse. -/
theorem pairK_null : pairK (words fun _ => 0) = (pairK (words fun _ => 0)).reverse := by decide +kernel

/-- A password whose keys are those of another in reverse decrypts what the other encrypted. -/
theorem apaEncryptPassword_reverse {password password' : Nat → UInt8}
    (hkeys : pairK (words password') = (pairK (words password)).reverse) (id : Nat → UInt8) :
    ∀ k < 8, (apaEncryptPassword ((apaEncryptPassword id password).getD · 0) password').getD k 0 = id k := by
  refine words_eq_iff.mp ?_
  unfold apaEncryptPassword
  rw [words_bytes, words_bytes, DESEncryptPassword_reverse hkeys]

/-- The password of null characters decrypts what it encrypted. -/
theorem apaEncryptPassword_reverse_null :
    (apaEncryptPassword ((apaEncryptPassword (fun _ => 95) fun _ => 0).getD · 0) fun _ => 0).getD 7 0 = 95 :=
  apaEncryptPassword_reverse pairK_null (fun _ => 95) 7 (by decide)

theorem words_not : words (fun k => ~~~s k) = words s ^^^ ones := by
  have hones : ∀ k : Fin 64, ones.bit k = true := by decide +kernel
  refine KeyPair.eq_of_bit fun n hn => ?_
  rw [KeyPair.bit_xor, words_bit hn, words_bit hn, hones ⟨n, hn⟩, Bool.xor_true]
  change (~~~(s (7 - n / 8)).toBitVec).getMsbD (n % 8) = _
  rw [BitVec.getMsbD_not, decide_eq_true (Nat.mod_lt n (by decide)), Bool.true_and]

theorem bytes_not (w : BitVec 32) : bytes (w ^^^ 0xFFFFFFFF) = (bytes w).map (~~~·) := by
  unfold bytes
  rw [List.map_map]
  refine List.map_congr_left fun k hk => byte_eq fun j hj => ?_
  have hk' := List.mem_range.mp hk
  change _ = (~~~((w >>> (8 * k)).setWidth 8)).getMsbD j
  have hones : (0xFFFFFFFF : BitVec 32).getMsbD (8 * (3 - k) + j) = true := by
    have hall : ∀ m : Fin 32, (0xFFFFFFFF : BitVec 32).getMsbD m = true := by decide
    exact hall ⟨8 * (3 - k) + j, by omega⟩
  rw [BitVec.getMsbD_not, decide_eq_true hj, Bool.true_and, byte_bit hk' hj, byte_bit hk' hj, BitVec.getMsbD_xor, hones,
    Bool.xor_true]

/-- The complement of a name, encrypted with the complement of a password, is the complement of the result. -/
theorem apaEncryptPassword_complement (id password : Nat → UInt8) :
    apaEncryptPassword (fun k => ~~~id k) (fun k => ~~~password k) = (apaEncryptPassword id password).map (~~~·) := by
  unfold apaEncryptPassword
  rw [words_not, words_not, DESEncryptPassword_ones, List.map_append, ← bytes_not, ← bytes_not]
  rfl

/-! ### Passwords that are not told apart -/

/-- The lowest bit of a byte apart, two bytes are equal bit for bit. -/
theorem half_bit {a b : UInt8} :
    a.toNat / 2 = b.toNat / 2 ↔ ∀ j < 7, a.toBitVec.getMsbD j = b.toBitVec.getMsbD j := by
  have hbit : ∀ (c : UInt8) (j : Nat), j < 7 → c.toBitVec.getMsbD j = (c.toNat / 2).testBit (6 - j) := by
    intro c j hj
    rw [BitVec.getMsbD_eq_getLsbD, decide_eq_true (by omega), Bool.true_and, Nat.testBit_div_two,
      show 6 - j + 1 = 8 - 1 - j by omega]
    rfl
  constructor
  · intro heq j hj
    rw [hbit a j hj, hbit b j hj, heq]
  · intro hbits
    refine Nat.eq_of_testBit_eq fun i => ?_
    rcases Nat.lt_or_ge i 7 with hlt | hge
    · have hj := hbits (6 - i) (by omega)
      rwa [hbit a _ (by omega), hbit b _ (by omega), show 6 - (6 - i) = i by omega] at hj
    · have hpow := Nat.pow_le_pow_right (show 0 < 2 by decide) hge
      have ha := a.toNat_lt
      have hb := b.toNat_lt
      rw [Nat.testBit_lt_two_pow (by omega), Nat.testBit_lt_two_pow (by omega)]

/-- Every bit of the password but the lowest ones of its bytes is in the key of some round. -/
private theorem keyTables_mem_of {n : Nat} (hn : n < 64) (hbit : n % 8 ≠ 7) : ∃ table ∈ keyTables Rotations 0, n + 1 ∈ table := by
  have hall : ∀ k : Fin 64, k.val % 8 ≠ 7 → ∃ table ∈ keyTables Rotations 0, k.val + 1 ∈ table := by decide +kernel
  exact hall ⟨n, hn⟩ hbit

/-- Two passwords give the same keys just if their bytes differ in their lowest bits alone. -/
theorem pairK_eq_iff (password password' : Nat → UInt8) : pairK (words password) = pairK (words password') ↔
    ∀ k < 8, (password k).toNat / 2 = (password' k).toNat / 2 := by
  have hbits : (∀ k < 8, (password k).toNat / 2 = (password' k).toNat / 2) ↔
      ∀ n < 64, n % 8 ≠ 7 → (words password).bit n = (words password').bit n := by
    constructor
    · intro hhalf n hn hbit
      rw [words_bit hn, words_bit hn]
      exact half_bit.mp (hhalf _ (by omega)) _ (by omega)
    · intro hbits k hk
      refine half_bit.mpr fun j hj => ?_
      have hbit := hbits (8 * (7 - k) + j) (by omega) (by omega)
      rwa [words_bit (by omega), words_bit (by omega), show 7 - (8 * (7 - k) + j) / 8 = k by omega,
        show (8 * (7 - k) + j) % 8 = j by omega] at hbit
  rw [hbits, pairK_eq, pairK_eq]
  constructor
  · intro heq n hn hbit
    obtain ⟨table, htable, hentry⟩ := keyTables_mem_of hn hbit
    have hsame := List.map_inj_left.mp heq table htable
    obtain ⟨t, rfl⟩ := keyTables_mem htable
    obtain ⟨m, hm, hmeq⟩ := List.mem_iff_getElem.mp hentry
    obtain ⟨hplaces, hlength, -⟩ := keyTable_places t
    have hm64 : m < 64 := by omega
    have hselect := congrArg (KeyPair.bit · m) hsame
    simp only [select_bit hplaces hm64, List.getElem?_eq_getElem hm, hmeq, Option.any_some] at hselect
    exact hselect
  · intro heq
    refine List.map_congr_left fun table htable => ?_
    obtain ⟨t, rfl⟩ := keyTables_mem htable
    obtain ⟨hplaces, -, hbits⟩ := keyTable_places t
    refine select_congr hplaces fun e he => heq _ ?_ ?_
    · have := (hplaces.2 e he).2
      omega
    · have := (hplaces.2 e he).1
      have := hbits e he
      omega

/-- The lowest bit of a byte of the password does nothing for the result. -/
theorem apaEncryptPassword_lowest {password password' : Nat → UInt8}
    (h : ∀ k < 8, (password k).toNat / 2 = (password' k).toNat / 2) (id : Nat → UInt8) :
    apaEncryptPassword id password = apaEncryptPassword id password' := by
  unfold apaEncryptPassword
  rw [DESEncryptPassword_eq, DESEncryptPassword_eq, (pairK_eq_iff password password').mpr h]

/-- Eight times `b` does for eight times `c`. -/
theorem apaEncryptPassword_lowest_letters :
    apaEncryptPassword (fun _ => 95) (fun _ => 98) = apaEncryptPassword (fun _ => 95) fun _ => 99 :=
  @apaEncryptPassword_lowest (fun _ => 98) (fun _ => 99) (fun _ _ => by decide) (fun _ => 95)

end HddChecker.Apa.Password
