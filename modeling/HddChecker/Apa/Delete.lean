import HddChecker.Apa.Buddies
import HddChecker.Apa.Steady

/-!
# What deleting a partition does to the table

`apaDelete` frees a partition and merges it with its empty neighbours, or cuts the end of the table off when the partition is the last one. In both cases the other partitions stay as they are, and the table is whole at every flush on the way.
-/

namespace HddChecker.Apa

open HddChecker Prog

variable {π : Promise} {w : WriteBack (Option Sector)} {d : Device} {m x : ApaHeader}
  {A B : List ApaHeader}

/-! ### Merging tiles -/

theorem head_of_tiles {s : Nat} {L : List ApaHeader} (h : Tiles s L) (hL : L ≠ []) (n : Nat) :
    headerLinks.head L n = s := by
  cases L with
  | nil => exact (hL rfl).elim
  | cons x L => exact h.1

theorem Tiles.merge {s : Nat} {A X B : List ApaHeader} {y : ApaHeader} (h : Tiles s (A ++ (X ++ B)))
    (hX : X ≠ []) (hpart : Part y) (hstart : y.start = headerLinks.head X 0)
    (hlength : y.length = total X) : Tiles s (A ++ y :: B) := by
  rw [tiles_append, tiles_append] at h
  rw [tiles_append]
  obtain ⟨hA, hXt, hB⟩ := h
  refine ⟨hA, ?_, hpart, ?_⟩
  · rw [hstart, head_of_tiles hXt hX]
  · rwa [hlength]

/-- A flush after which the segment `X` of the table reads `Y` and the header behind it names the new predecessor. -/
theorem Steady.flush_splice {X Y : List ApaHeader} {d₀ d : Device} {v : Nat → Option ApaHeader}
    {D : List Nat} (h : Steady π w d₀ (m :: (A ++ (X ++ B)))) (hs : Shows d₀ v D d)
    (hX : X ≠ []) (hY : Y ≠ []) (htiles : Tiles 0 (m :: (A ++ (Y ++ B))))
    (hholds : π.holds (used (m :: (A ++ (Y ++ B)))) d₀.disk) (hfew : D.length ≤ 126)
    (hseg : headerLinks.Chain v (headerLinks.last 0 (m :: A)) Y (headerLinks.head B 0))
    (hafter : ∀ y, d₀.view (headerLinks.head B 0) = some y → ∃ y',
      v (headerLinks.head B 0) = some y' ∧ y'.body = y.body ∧
        y'.prev = headerLinks.last 0 Y ∧ y'.next = y.next)
    (hdirty : ∀ s ∈ D, s = headerLinks.head B 0 ∨ ∃ x ∈ Y, x.start = s)
    (hnew : ∀ x ∈ Y, x.start ∈ D) (hclean : ∀ s, s ∉ D → v s = d₀.view s) :
    Steady π w d.apaCacheFlushAllDirty.2 (m :: (A ++ (Y ++ B))) := by
  have hkeys := htiles.keys
  have htilesA : Tiles 0 (m :: A) := by
    rw [← List.cons_append, tiles_append] at htiles
    exact htiles.1
  have hheads : headerLinks.head Y 0 = headerLinks.head X 0 := by
    have hnew := htiles
    have hold := h.tiles
    rw [← List.cons_append, tiles_append, tiles_append] at hnew hold
    rw [head_of_tiles hnew.2.1 hY, head_of_tiles hold.2.1 hX]
  have hrest : ∀ y ∈ m :: (A ++ B), y.start ≠ headerLinks.head B 0 → v y.start = d₀.view y.start := by
    intro y hy hne
    refine hclean _ fun hD => ?_
    rcases hdirty _ hD with heq | ⟨x, hx, heq⟩
    · exact hne heq
    · have hnodup := hkeys.nodup
      rw [List.map_cons, List.nodup_cons, List.map_append, List.nodup_append, List.map_append,
        List.nodup_append] at hnodup
      simp only [List.mem_append, List.mem_map] at hnodup
      rcases List.mem_cons.mp hy with rfl | hy
      · exact hnodup.1 (.inr (.inl ⟨x, hx, heq⟩))
      · rcases List.mem_append.mp hy with hy | hy
        · exact hnodup.2.2.2 _ ⟨y, hy, rfl⟩ _ (.inl ⟨x, hx, rfl⟩) heq.symm
        · exact hnodup.2.2.1.2.2 _ ⟨x, hx, rfl⟩ _ ⟨y, hy, rfl⟩ heq
  have hring : headerLinks.Ring v (m :: (A ++ (Y ++ B))) :=
    h.ring.splice h.tiles.keys hX hY hheads hseg hafter hrest
  refine (h.flush hs hring htiles hholds hfew ?_ ?_).2.1
  · intro s hsD
    rcases hdirty s hsD with rfl | ⟨x, hx, rfl⟩
    · cases B with
      | nil => exact ⟨m, by simp, htiles.1⟩
      | cons b B => exact ⟨b, by simp, rfl⟩
    · exact ⟨x, by simp [hx], rfl⟩
  · intro x hx hD
    refine ⟨hclean _ hD, x, ?_, rfl⟩
    have hnot : x ∉ Y := fun hX => hD (hnew x hX)
    simp only [List.mem_cons, List.mem_append] at hx ⊢
    grind

theorem Tiles.top {s : Nat} {L : List ApaHeader} (h : Tiles s L) (hL : L ≠ []) :
    s + total L ≤ 2 ^ 32 := by
  induction L generalizing s with
  | nil => exact (hL rfl).elim
  | cons x L ih =>
    obtain ⟨hs, hpart, hrest⟩ := h
    rw [total_cons, ← Nat.add_assoc]
    cases L with
    | nil =>
      have := hpart.top
      simpa [← hs] using this
    | cons y L => exact ih hrest (by simp)

theorem Shows.lengthen {d₀ e : Device} {v : Nat → Option ApaHeader} {D : List Nat} {f c T : Nat} {vf vc : ApaHeader}
    (hs : Shows d₀ v D e) (hf : Slot f) (hc : Slot c) (hne : f ≠ c) (hvf : v f = some vf) (hstart : vf.start = f)
    (hvc : v c = some vc) :
    let e₂ := (e.setHeader f fun h => { h with length := T }).setHeader f fun h => { h with next := u32 (h.start + T) }
    Shows d₀
      (fun t => if t = c then some { vc with prev := f }
        else if t = f then some { vf with length := T, next := u32 (f + T) } else v t)
      (f :: c :: D) (((e₂.setHeader c fun h => { h with prev := (e₂.header f).start }).setDirty c).setDirty f) := by
  intro e₂
  have hs₂ : Shows d₀ _ D e₂ := (hs.setHeader hf _).setHeader hf _
  have hheader : (e₂.header f).start = f := by
    rw [hs₂.header]
    simp [hvf, hstart]
  rw [hheader]
  have hs₃ := hs₂.setHeader hc fun h => { h with prev := f }
  refine ((hs₃.setDirty hc ?_).setDirty hf ?_).congr fun t => ?_
  · simp [hvc, hne.symm]
  · simp [hvf, hne]
  · by_cases htc : t = c
    · simp [htc, hvc, hne.symm]
    · by_cases htf : t = f
      · simp [htf, hvf, hne, hstart]
      · simp [htc, htf]

namespace Device

theorem mergeable_iff {s t : Nat} (ht : t ≠ 0) : mergeable s t = true ↔ Dyadic s t := by
  unfold mergeable
  rw [Bool.and_eq_true, beq_iff_eq, beq_iff_eq, Nat.and_sub_one_eq_zero_iff_isPowerOfTwo ht]
  constructor
  · exact fun h => ⟨h.2, Nat.dvd_of_mod_eq_zero h.1⟩
  · exact fun h => ⟨Nat.mod_eq_zero_of_dvd h.dvd, h.pow⟩

theorem mergeable_left {u : ApaHeader} {s T : Nat} {A : List ApaHeader} (hu : Part u)
    (hblock : Dyadic s T) (htop : u.start + u.length + T ≤ 2 ^ 32) (hu0 : u.start ≠ 0) :
    u32 (u.length + T) = u.length + T ∧
      (u.isFree = true ∧ mergeable u.start (u.length + T) = true ↔ leftBuddy (u :: A) T = true) := by
  have hpos := hblock.pos
  refine ⟨Nat.mod_eq_of_lt (by omega), ?_⟩
  rw [mergeable_iff (by omega), Dyadic.add_iff hu.dyadic.pow hblock.pow, leftBuddy]
  simp [and_assoc]

private theorem mergeable_right {b : ApaHeader} {s T : Nat} {B : List ApaHeader} (hb : Part b)
    (hblock : Dyadic s T) (htop : s + T + b.length ≤ 2 ^ 32) (hs0 : s ≠ 0) :
    u32 (b.length + T) = b.length + T ∧
      (b.isFree = true ∧ mergeable s (b.length + T) = true ↔ rightBuddy s T (b :: B) = true) := by
  have hpos := hblock.pos
  refine ⟨Nat.mod_eq_of_lt (by omega), ?_⟩
  rw [mergeable_iff (by omega), Dyadic.add_iff hb.dyadic.pow hblock.pow, rightBuddy]
  simp [and_assoc]

theorem exists_concat_of_free {L I A : List ApaHeader} {m u : ApaHeader} (htiles : Tiles 0 (m :: L))
    (hIu : m :: A = I ++ [u]) (hfree : u.isFree = true) : ∃ A', I = m :: A' ∧ A = A' ++ [u] := by
  cases I with
  | nil =>
    obtain ⟨rfl, -⟩ := List.cons.inj hIu
    have hmbr := ((htiles.part List.mem_cons_self).mbr htiles.1).2.1
    rw [hmbr] at hfree
    cases hfree
  | cons i A' =>
    obtain ⟨rfl, htail⟩ := List.cons.inj hIu
    exact ⟨A', rfl, htail⟩

/-- The loop finds the empty partitions `F` before `x` that merge with it: its buddies to the left, as far as they go. -/
theorem fixPrevLoop_spec (h : Steady π w d (m :: (A ++ x :: B))) :
    wp (fixPrevLoop x.start x.length) d fun r e => ∃ A' F, A = A' ++ F ∧
      (∀ f ∈ F, f.isFree = true) ∧ Same Slot d e ∧
      r = .ok (headerLinks.head (F ++ [x]) 0, total (F ++ [x])) ∧
      Dyadic (headerLinks.head (F ++ [x]) 0) (total (F ++ [x])) ∧
      leftBuddy A'.reverse (total (F ++ [x])) = false ∧
      buddySides A.reverse x.start x.length B = List.replicate F.length .left ++
        buddySides A'.reverse (headerLinks.head (F ++ [x]) 0) (total (F ++ [x])) B ∧
      total (F ++ [x]) = 2 ^ F.length * x.length := by
  refine wp_loop (fun y e => ∃ A' F, A = A' ++ F ∧ (∀ f ∈ F, f.isFree = true) ∧ Same Slot d e ∧
      y = (headerLinks.head (F ++ [x]) 0, total (F ++ [x])) ∧
      Dyadic (headerLinks.head (F ++ [x]) 0) (total (F ++ [x])) ∧
      buddySides A.reverse x.start x.length B = List.replicate F.length .left ++
        buddySides A'.reverse (headerLinks.head (F ++ [x]) 0) (total (F ++ [x])) B ∧
      total (F ++ [x]) = 2 ^ F.length * x.length)
    (fun y _ => y.1) ?_ ⟨A, [], by simp, by simp, .refl _ _, by simp, ?_, by simp, by simp⟩
  · rintro ⟨clink, length⟩ e ⟨A', F, rfl, hfree, hsame, hy, hdyadic, hsides, hdouble⟩
    obtain ⟨z, R, hzR⟩ : ∃ z R, F ++ [x] = z :: R := List.exists_cons_of_ne_nil (by simp)
    obtain ⟨I, u, hIu⟩ : ∃ I u, m :: A' = I ++ [u] :=
      ⟨_, _, (List.dropLast_append_getLast (by simp)).symm⟩
    have hP : m :: (A' ++ F ++ x :: B) = (I ++ [u]) ++ z :: (R ++ B) := by
      have htail : F ++ x :: B = z :: (R ++ B) := by
        rw [← List.cons_append, ← hzR, List.append_assoc, List.singleton_append]
      rw [← hIu, List.append_assoc, htail, List.cons_append]
    have hP' : m :: (A' ++ F ++ x :: B) = I ++ u :: (z :: (R ++ B)) := by
      rw [hP, List.append_assoc, List.singleton_append]
    have htiles := h.tiles
    rw [hzR] at hy hdyadic hsides hdouble
    obtain ⟨rfl, rfl⟩ := Prod.mk.inj hy
    obtain ⟨vz, hvz, hzbody, hzprev, -⟩ := (hP ▸ h).node
    obtain ⟨vu, hvu, hubody, -, -⟩ := (hP' ▸ h).node
    rw [headerLinks.last_append] at hzprev
    have hzprev : vz.prev = u.start := hzprev
    have hzstart : vz.start = z.start := ApaHeader.start_of_body hzbody
    have hz0 : z.start ≠ 0 := by
      refine htiles.keys.ne_zero ?_
      have hmem : z ∈ F ++ [x] := hzR ▸ List.mem_cons_self
      simp only [List.mem_append, List.mem_cons] at hmem ⊢
      grind
    have huP : u ∈ m :: (A' ++ F ++ x :: B) := by
      rw [hP']
      simp
    obtain ⟨e', hget, hsame'⟩ := apaCacheGetHeader_ok (S := Slot) ((hsame.view _).trans hvu)
      (htiles.part huP).slot
    have hus := (htiles.part huP).slot
    have hhead : e.header (headerLinks.head (z :: R) 0) = vz := by
      rw [hsame.header]
      exact header_of_view hvz
    have hu' : e'.header u.start = vu := by
      rw [(hsame.trans hsame').header]
      exact header_of_view hvu
    have hustart : vu.start = u.start := ApaHeader.start_of_body hubody
    have hulength : vu.length = u.length := ApaHeader.length_of_body hubody
    have hufree : vu.type = APA_TYPE_FREE ↔ u.isFree = true := by
      rw [← hubody, ApaHeader.isFree, beq_iff_eq]
      rfl
    have htiles' := htiles
    rw [hP', tiles_append] at htiles'
    obtain ⟨-, hutotal, -, hrest⟩ := htiles'
    have htop := hrest.top (by simp)
    rw [← List.cons_append, total_append] at htop
    have hzs : z.start = u.start + u.length := by
      rw [hutotal]
      exact hrest.1
    simp only [wp_read_bind, hhead, hzstart, hz0, if_false, hzprev, wp_ofState_bind, hget, hu',
      hustart, hulength, ne_eq, hufree]
    split
    · rename_i hstop
      simp only [wp_modify_bind, wp_pure_iff]
      refine ⟨A', F, rfl, hfree, (hsame.trans hsame').trans (same_apaCacheFree hus), ?_, ?_, ?_, ?_⟩
      · rw [hzR]
      · rwa [hzR]
      · rw [hzR]
        rcases List.eq_nil_or_concat A' with rfl | ⟨A'', u', rfl⟩
        · rfl
        · rw [List.concat_eq_append] at hIu ⊢
          obtain ⟨rfl, hu⟩ := List.append_inj' (show (m :: A'') ++ [u'] = I ++ [u] from hIu) rfl
          obtain rfl := (List.cons.inj hu).1
          have hu0 : u'.start ≠ 0 := htiles.keys.ne_zero (by simp)
          rw [List.reverse_append, List.reverse_singleton, List.singleton_append]
          obtain ⟨htmp, hiff⟩ := mergeable_left (A := A''.reverse) (htiles.part huP) hdyadic
            (by omega) hu0
          rw [htmp] at hstop
          by_contra hbuddy
          rw [Bool.not_eq_false, ← hiff] at hbuddy
          rcases hstop with hused | hmerge
          · exact hused hbuddy.1
          · rw [hbuddy.2] at hmerge
            cases hmerge
      · rw [hzR]
        exact ⟨hsides, hdouble⟩
    · rename_i hstop
      rw [not_or, not_not, Bool.not_eq_false] at hstop
      obtain ⟨hfreeu, hmerge⟩ := hstop
      simp only [wp_modify_bind, wp_pure_iff]
      obtain ⟨A'', rfl, rfl⟩ := exists_concat_of_free htiles hIu (by simpa using hfreeu)
      have hu0 : u.start ≠ 0 := htiles.keys.ne_zero (by simp)
      obtain ⟨htmp, hiff⟩ := mergeable_left (A := A''.reverse) (htiles.part huP) hdyadic
        (by omega) hu0
      rw [htmp] at hmerge ⊢
      have hbuddy := hiff.mp ⟨hfreeu, hmerge⟩
      have hpos := hdyadic.pos
      rw [mergeable_iff (by omega)] at hmerge
      have hlen : u.length = total (z :: R) :=
        ((Dyadic.add_iff (htiles.part huP).dyadic.pow hdyadic.pow).mp hmerge).1
      refine ⟨⟨A'', u :: F, by simp, ?_, ?_, ?_, ?_, ?_⟩, ?_⟩
      · intro f hf
        rcases List.mem_cons.mp hf with rfl | hf
        · exact hfreeu
        · exact hfree f hf
      · exact (hsame.trans hsame').trans (same_apaCacheFree (htiles.part (by
          rw [hP]
          simp)).slot)
      · rw [List.cons_append, hzR]
        rfl
      · rw [List.cons_append, hzR]
        exact hmerge
      · have hblock : z.start - total (z :: R) = u.start ∧
            2 * total (z :: R) = u.length + total (z :: R) := by omega
        have hrev : (A'' ++ [u]).reverse = u :: A''.reverse := by simp
        rw [hrev, headerLinks.head_cons, headerLinks_key, buddySides_left hbuddy, hblock.1, hblock.2,
          List.tail_cons] at hsides
        constructor
        · rw [List.cons_append, hzR, hsides, List.length_cons, List.replicate_succ', List.append_assoc]
          rfl
        · rw [List.cons_append, hzR, total_cons, hlen, ← Nat.two_mul, hdouble, List.length_cons,
            Nat.pow_succ', Nat.mul_assoc]
      · have hulen := (htiles.part huP).two_le
        change u.start < z.start
        omega
  · simpa using (h.tiles.part (by simp)).dyadic

/-- From `x` between `A` and `B` to `y` between `A'` and `B'` the buddies on one side are taken in, as far as they go, and each of them doubles the block. -/
def Taken (side : Side) (A : List ApaHeader) (x : ApaHeader) (B A' : List ApaHeader) (y : ApaHeader)
    (B' : List ApaHeader) : Prop :=
  buddySides A'.reverse y.start y.length B' = side.skip (buddySides A.reverse x.start x.length B) ∧
    y.length * 2 ^ (side.skip (buddySides A.reverse x.start x.length B)).length =
      x.length * 2 ^ (buddySides A.reverse x.start x.length B).length

/-- The partition `x` between `A` and `B` is now `y` between `A'` and `B'`: it is as it was, or it has become a larger empty partition that took in empty neighbours. -/
structure Fixed (A : List ApaHeader) (x : ApaHeader) (B A' : List ApaHeader) (y : ApaHeader)
    (B' : List ApaHeader) : Prop where
  shape : ∃ F G, A = A' ++ F ∧ B = G ++ B' ∧ (∀ f ∈ F ++ G, f.isFree = true) ∧
    y.length = total (F ++ x :: G)
  fate : A' = A ∧ y = x ∧ B' = B ∨ y.isFree = true ∧ x.length < y.length

theorem doubled_length {side : Side} {n k l : Nat} {W : List Side} (hdouble : k = 2 ^ n * l) :
    k * 2 ^ W.length = l * 2 ^ (List.replicate n side ++ W).length := by
  rw [hdouble, List.length_append, List.length_replicate, Nat.pow_add]
  ring

theorem apaDeleteFixPrev_spec (h : Steady π w d (m :: (A ++ x :: B)))
    (hB : B ≠ [] ∨ leftBuddy A.reverse x.length = false ∨ total (m :: (A ++ [x])) = 2 ^ 32)
    (hdrop : π.holds (used (m :: A) ++ used B) d.disk) :
    wp (apaDeleteFixPrev x.start) d fun r e => ∃ A' y, r = .ok y.start ∧ Fixed A x B A' y B ∧
      Taken .left A x B A' y B ∧ Steady π w e (m :: (A' ++ y :: B)) ∧ π.holds (used (m :: A') ++ used B) e.disk ∧
      ∀ s, Slot s → (∀ y ∈ m :: (A ++ x :: B), s ≠ y.start) → e.view s = d.view s := by
  obtain ⟨vx, hvx, hxbody, -, hxnext⟩ := (show Steady π w d ((m :: A) ++ x :: B) from h).node
  have hxlength : vx.length = x.length := ApaHeader.length_of_body hxbody
  rw [apaDeleteFixPrev]
  simp only [wp_read_bind, header_of_view hvx, hxlength, hxnext]
  refine wp_bind ((fixPrevLoop_spec h).mono ?_)
  rintro r e ⟨A', F, rfl, hfree, hsame, rfl, hdyadic, hbuddy, hsides, hdouble⟩
  have htaken : ∀ y : ApaHeader, y.start = headerLinks.head (F ++ [x]) 0 →
      y.length = total (F ++ [x]) → Taken .left (A' ++ F) x B A' y B := by
    intro y hstart hlength
    rw [Taken, hsides, hstart, hlength, Side.skip_append (buddySides_head_left hbuddy)]
    exact ⟨rfl, doubled_length hdouble⟩
  cases F with
  | nil =>
    simp only [List.nil_append, total_cons, total_nil, Nat.add_zero, ne_eq, not_true_eq_false,
      if_false, wp_pure_iff]
    refine ⟨A', x, rfl, ⟨⟨[], [], by simp⟩, .inl ⟨by simp, rfl, rfl⟩⟩, htaken x rfl (by simp), ?_, ?_,
      fun s _ _ => hsame.view s⟩
    · simpa using h.same hsame
    · rw [hsame.disk]
      simpa using hdrop
  | cons f F =>
    set T := total (f :: F ++ [x]) with hT
    have htiles := h.tiles
    rw [show m :: (A' ++ f :: F ++ x :: B) = m :: (A' ++ ((f :: F ++ [x]) ++ B)) by simp] at h htiles
    have hf : f ∈ m :: (A' ++ ((f :: F ++ [x]) ++ B)) := by simp
    have hf0 : f.start ≠ 0 := htiles.keys.ne_zero (y := f) (by simp)
    obtain ⟨vf, hvf, hfbody, hfprev, -⟩ := (show Steady π w d ((m :: A') ++
      f :: (F ++ [x] ++ B)) by simpa using h).node
    have hfslot := (htiles.part hf).slot
    have hlong : x.length < T := by
      have := (htiles.part hf).two_le
      simp only [hT, List.cons_append, total_cons, total_append, total_nil]
      omega
    have hfT : f.start + T ≤ 2 ^ 32 := by
      have hsplit := htiles
      rw [← List.cons_append, tiles_append, tiles_append] at hsplit
      have := hsplit.2.1.top (by simp)
      have := hsplit.2.1.1
      omega
    -- the header behind the run is the MBR when the run ends the table
    obtain ⟨vb, hvb, hbslot, hfb, hu32⟩ : ∃ vb, d.view (headerLinks.head B 0) = some vb ∧
        Slot (headerLinks.head B 0) ∧ f.start ≠ headerLinks.head B 0 ∧
        u32 (f.start + T) = headerLinks.head B 0 := by
      cases B with
      | nil =>
        obtain ⟨vm, hvm, -⟩ := (show Steady π w d ([] ++ m :: (A' ++ ((f :: F ++ [x]) ++ []))) from h).node
        rw [htiles.1] at hvm
        refine ⟨vm, hvm, ⟨0, rfl⟩, hf0, ?_⟩
        rcases hB with hB | hB | hB
        · exact (hB rfl).elim
        · have hnil := @buddySides_head_left _ [] x.start _ hB
          rw [hsides, List.length_cons, List.replicate_succ] at hnil
          exact (hnil rfl).elim
        · have hsplit := htiles
          rw [← List.cons_append, tiles_append, List.append_nil] at hsplit
          have hfs := hsplit.2.1
          simp only [total_cons, total_append, total_nil] at hB hfs
          rw [show f.start + T = 2 ^ 32 by
            simp only [hT, List.cons_append, total_cons, total_append, total_nil]
            omega]
          rfl
      | cons b B =>
        obtain ⟨vb, hvb, -, -, -⟩ := (show Steady π w d ((m :: (A' ++ (f :: F ++ [x]))) ++ b :: B) by
          simpa using h).node
        have hsplit := htiles
        rw [← List.cons_append, tiles_append, tiles_append] at hsplit
        obtain ⟨-, ⟨hfs, -⟩, hbs, hbpart, -⟩ := hsplit
        have := hbpart.top
        have := hbpart.two_le
        refine ⟨vb, hvb, hbpart.slot, ?_, ?_⟩
        · rw [headerLinks.head_cons, headerLinks_key]
          omega
        · rw [headerLinks.head_cons, headerLinks_key]
          exact (Nat.mod_eq_of_lt (by omega)).trans (by omega)
    set c := headerLinks.head B 0 with hc
    obtain ⟨e₁, hget, hs⟩ := (h.shows hsame).get hbslot hvb
    simp only [List.cons_append, headerLinks.head_cons, headerLinks_key] at hget ⊢
    rw [if_pos (by omega)]
    simp only [wp_ofState_bind, hget, wp_modify_bind, wp_read_bind, wp_pure_iff]
    have hvfstart : vf.start = f.start := ApaHeader.start_of_body hfbody
    have hs₃ := hs.lengthen (T := T) hfslot hbslot hfb hvf hvfstart hvb
    have hpart : Part { f with length := T } := by
      have hpf := htiles.part hf
      refine ⟨hpf.magic, hdyadic, ?_, ?_, ?_, ?_⟩
      · have := (htiles.part (x := x) (by simp)).large
        simp only
        omega
      · simp only
        omega
      · intro hzero
        exact ((htiles.keys.ne_zero (y := f) (by simp)) hzero).elim
      · exact hpf.blank
    have hfreey : ({ f with length := T } : ApaHeader).isFree = true :=
      hfree f List.mem_cons_self
    have hused : used (m :: (A' ++ ([{ f with length := T }] ++ B))) =
        used (m :: A') ++ used (B) := by
      rw [← List.cons_append, used_append, used_append, used_eq_nil (L := [_]) (by
        simpa using hfreey), List.nil_append]
    have hholds : π.holds (used (m :: A') ++ used (B)) d.disk := by
      rw [← List.cons_append, used_append, used_eq_nil hfree, List.append_nil] at hdrop
      exact hdrop
    have hsteady := h.flush_splice (Y := [{ f with length := T }]) hs₃ (by simp) (by simp)
      (by simpa using htiles.merge (A := m :: A') (by simp) hpart rfl rfl) (hused ▸ hholds) (by simp)
      ⟨⟨{ vf with length := T, next := c }, ?_, ?_, ?_, rfl⟩, trivial⟩ ?_ ?_ (by simp) ?_
    · refine ⟨A', { f with length := T }, rfl,
        ⟨⟨f :: F, [], rfl, rfl, by simpa using hfree, rfl⟩, .inr ⟨hfreey, hlong⟩⟩,
        htaken _ rfl rfl, ?_, ?_, fun s hslot hs => ?_⟩
      · exact hsteady.same (same_apaCacheFree hbslot)
      · have := (hsteady.same (same_apaCacheFree hbslot)).holds
        rwa [hused] at this
      · have hsf : s ≠ f.start := hs f (by simp)
        have hsc : s ≠ c := by
          rw [hc]
          cases B with
          | nil =>
            rw [headerLinks.head_nil, ← htiles.1]
            exact hs m List.mem_cons_self
          | cons b B => exact hs b (by simp)
        have hflushed := (hs₃.sound.flushable places_slot (fun s => (hs₃.dirty s).mp) (by simp)).flushed
          places_slot hs₃.sound
        have hclean : ¬ _ := mt (hs₃.dirty s).mp (by simp [hsf, hsc])
        rw [view_apaCacheFree, hflushed.view s hslot, if_neg hclean, hs₃.view]
        simp [hsf, hsc]
    · simp [hfb, hu32]
    · rw [← hfbody]
      rfl
    · rw [hfprev]
      rfl
    · intro y hy
      rw [← hc] at hy ⊢
      obtain rfl := Option.some.inj (hvb.symm.trans hy)
      exact ⟨{ vb with prev := f.start }, by simp, rfl, rfl, rfl⟩
    · intro s hsD
      simp only [List.mem_cons, List.not_mem_nil, or_false, exists_eq_left] at hsD ⊢
      grind
    · intro s hsD
      simp only [List.mem_cons, List.not_mem_nil, or_false, not_or] at hsD
      simp [hsD.1, hsD.2]

/-- A run that ends the table names the sector behind it as its next header. -/
theorem apaDeleteFixPrev_end (h : Steady π w d (m :: (A ++ [x])))
    (hbuddy : leftBuddy A.reverse x.length = true) (hend : total (m :: (A ++ [x])) < 2 ^ 32) :
    wp (apaDeleteFixPrev x.start) d fun r e => ∃ f ∈ A, r = .ok f.start ∧ e.Sound Slot ∧
      (∃ v, e.view f.start = some v ∧ v.next = total (m :: (A ++ [x]))) ∧
      ∀ s, Slot s → s ≠ f.start → (e.view s).map (·.next) = (d.view s).map (·.next) := by
  obtain ⟨vx, hvx, hxbody, -, hxnext⟩ := (show Steady π w d ((m :: A) ++ x :: []) from h).node
  obtain ⟨vm, hvm, -⟩ := (show Steady π w d ([] ++ m :: (A ++ [x])) from h).node
  rw [h.tiles.1] at hvm
  have hxlength : vx.length = x.length := ApaHeader.length_of_body hxbody
  rw [apaDeleteFixPrev]
  simp only [wp_read_bind, header_of_view hvx, hxlength, hxnext]
  refine wp_bind ((fixPrevLoop_spec h).mono ?_)
  rintro r e ⟨A', F, rfl, -, hsame, rfl, -, hstop, hsides, -⟩
  cases F with
  | nil =>
    rw [List.append_nil, List.nil_append, total_cons, total_nil, Nat.add_zero] at *
    rw [hbuddy] at hstop
    cases hstop
  | cons f F =>
    set T := total (f :: F ++ [x]) with hT
    have htiles := h.tiles
    have hP : m :: (A' ++ f :: F ++ [x]) = (m :: A') ++ f :: (F ++ [x]) := by simp
    obtain ⟨vf, hvf, hfbody, -, -⟩ := (hP ▸ h).node
    have hf : f ∈ m :: (A' ++ f :: F ++ [x]) := by simp
    have hf0 : f.start ≠ 0 := htiles.keys.ne_zero (y := f) (by simp)
    have hfslot := (htiles.part hf).slot
    have hsplit := htiles
    rw [hP, tiles_append] at hsplit
    have hlen : x.length < T ∧ f.start + T = total (m :: (A' ++ f :: F ++ [x])) := by
      have := (htiles.part hf).two_le
      have := hsplit.2.1
      simp only [hT, List.cons_append, total_cons, total_append, total_nil] at *
      omega
    obtain ⟨e₁, hget, hs⟩ := (h.shows hsame).get (s := 0) ⟨0, rfl⟩ hvm
    simp only [List.cons_append, headerLinks.head_cons, headerLinks_key, headerLinks.head_nil]
    rw [if_pos (by omega)]
    simp only [wp_ofState_bind, hget, wp_modify_bind, wp_read_bind, wp_pure_iff]
    have hvfstart : vf.start = f.start := ApaHeader.start_of_body hfbody
    have hs₃ := hs.lengthen (T := T) hfslot ⟨0, rfl⟩ hf0 hvf hvfstart hvm
    have hflushed := (hs₃.sound.flushable places_slot (fun s => (hs₃.dirty s).mp) (by simp)).flushed
      places_slot hs₃.sound
    have hu32 : u32 (f.start + T) = total (m :: (A' ++ f :: F ++ [x])) := by
      rw [hlen.2]
      exact Nat.mod_eq_of_lt hend
    refine ⟨f, by simp, rfl, (same_apaCacheFree ⟨0, rfl⟩).sound hflushed.sound, ?_,
      fun s hslot hne => ?_⟩
    · rw [view_apaCacheFree, hflushed.view _ hfslot, hs₃.view]
      simp only [hf0, if_false, if_true, hu32]
      split
      · exact ⟨_, rfl, rfl⟩
      · exact ⟨_, rfl, rfl⟩
    · rw [view_apaCacheFree, hflushed.view _ hslot, hs₃.view]
      simp only [hne, if_false]
      by_cases hs0 : s = 0
      · subst hs0
        simp only [if_true, hvm, Option.map_some]
        split <;> rfl
      · simp only [hs0, if_false]
        split
        · cases d.view s <;> rfl
        · rfl

private theorem leftBuddy_of_right {s T : Nat} {B : List ApaHeader} (htiles : Tiles 0 (m :: (A ++ x :: B)))
    (hs : s = x.start) (hblock : Dyadic s T) (hmod : s % (2 * T) = 0) :
    leftBuddy A.reverse T = false := by
  rcases List.eq_nil_or_concat A with rfl | ⟨A', u, rfl⟩
  · rfl
  · rw [List.concat_eq_append, ← List.cons_append, tiles_append, ← List.cons_append,
      tiles_append] at htiles
    obtain ⟨⟨-, hu, -⟩, hx, -⟩ := htiles
    simp only [total_append, total_cons, total_nil] at hx hu
    rw [List.concat_eq_append, List.reverse_append, List.reverse_singleton, List.singleton_append]
    by_contra hbuddy
    simp only [leftBuddy, Bool.not_eq_false, Bool.and_eq_true, beq_iff_eq] at hbuddy
    obtain ⟨⟨-, hlength⟩, hu0⟩ := hbuddy
    have hpos := hblock.pos
    rw [hs, show x.start = u.start + T by omega, Nat.add_mod, hu0, Nat.zero_add, Nat.mod_mod,
      Nat.mod_eq_of_lt (by omega)] at hmod
    omega

/-- The loop finds the empty partitions `G` behind `x` that merge with it: its buddies to the right, as far as they go. -/
theorem fixNextLoop_spec (h : Steady π w d (m :: (A ++ x :: B))) :
    wp (fixNextLoop x.start x.start (headerLinks.head B 0) x.length) d fun r e => ∃ G B',
      B = G ++ B' ∧ (∀ g ∈ G, g.isFree = true) ∧ Same Slot d e ∧
      r = .ok (headerLinks.head B' 0, total (x :: G)) ∧ Dyadic x.start (total (x :: G)) ∧
      rightBuddy x.start (total (x :: G)) B' = false ∧
      buddySides A.reverse x.start x.length B = List.replicate G.length .right ++
        buddySides A.reverse x.start (total (x :: G)) B' ∧
      total (x :: G) = 2 ^ G.length * x.length := by
  have htiles := h.tiles
  refine wp_loop (fun y e => ∃ G B', B = G ++ B' ∧ (∀ g ∈ G, g.isFree = true) ∧ Same Slot d e ∧
      y = (headerLinks.head B' 0, total (x :: G)) ∧ Dyadic x.start (total (x :: G)) ∧
      buddySides A.reverse x.start x.length B = List.replicate G.length .right ++
        buddySides A.reverse x.start (total (x :: G)) B' ∧
      total (x :: G) = 2 ^ G.length * x.length)
    (fun y _ => 2 ^ 32 - y.2) ?_ ⟨[], B, rfl, by simp, .refl _ _, by simp, ?_, by simp, by simp⟩
  · rintro ⟨lnext, length⟩ e ⟨G, B', rfl, hfree, hsame, hy, hdyadic, hsides, hdouble⟩
    obtain ⟨rfl, rfl⟩ := Prod.mk.inj hy
    cases B' with
    | nil =>
      simp only [headerLinks.head_nil, if_true, wp_pure_iff]
      exact ⟨G, [], rfl, hfree, hsame, rfl, hdyadic, rfl, hsides, hdouble⟩
    | cons b B' =>
      have hbP : b ∈ m :: (A ++ x :: (G ++ b :: B')) := by simp
      obtain ⟨vb, hvb, hbbody, -, hbnext⟩ := (show Steady π w d ((m :: (A ++ x :: G)) ++ b :: B') by
        simpa using h).node
      have hb0 : b.start ≠ 0 := htiles.keys.ne_zero (by simp)
      have hbslot := (htiles.part hbP).slot
      have hblength : vb.length = b.length := ApaHeader.length_of_body hbbody
      have hbfree : vb.type = APA_TYPE_FREE ↔ b.isFree = true := by
        rw [← hbbody, ApaHeader.isFree, beq_iff_eq]
        rfl
      obtain ⟨e', hget, hsame'⟩ := apaCacheGetHeader_ok (S := Slot) ((hsame.view _).trans hvb) hbslot
      have hu' : e'.header b.start = vb := by
        rw [(hsame.trans hsame').header]
        exact header_of_view hvb
      have hsame₂ := (hsame.trans hsame').trans (same_apaCacheFree (d := e') hbslot)
      simp only [headerLinks.head_cons, headerLinks_key, hb0, if_false, wp_ofState_bind, hget,
        wp_read_bind, hu', hblength, ne_eq, hbfree, hbnext, wp_modify_bind]
      have htop : x.start + total (x :: G) + b.length ≤ 2 ^ 32 ∧ x.start ≠ 0 := by
        have hsplit := htiles
        rw [← List.cons_append, tiles_append, ← List.cons_append, tiles_append] at hsplit
        obtain ⟨-, ⟨hxs, -⟩, hbs, hbpart, -⟩ := hsplit
        have := hbpart.top
        have : x.start ≠ 0 := htiles.keys.ne_zero (by simp)
        omega
      obtain ⟨htmp, hiff⟩ := mergeable_right (B := B') (htiles.part hbP) hdyadic htop.1 htop.2
      rw [htmp]
      split
      · rename_i hstop
        rw [wp_pure_iff]
        refine ⟨G, b :: B', rfl, hfree, hsame₂, rfl, hdyadic, ?_, hsides, hdouble⟩
        by_contra hbuddy
        rw [Bool.not_eq_false, ← hiff] at hbuddy
        rcases hstop with hused | hmerge
        · exact hused hbuddy.1
        · rw [hbuddy.2] at hmerge
          cases hmerge
      · rename_i hstop
        rw [not_or, not_not, Bool.not_eq_false] at hstop
        obtain ⟨hfreeb, hmerge⟩ := hstop
        rw [wp_pure_iff]
        have hblen := (htiles.part hbP).two_le
        have hbuddy := hiff.mp ⟨hfreeb, hmerge⟩
        rw [mergeable_iff (by omega)] at hmerge
        obtain ⟨hlen, hmod⟩ := (Dyadic.add_iff (htiles.part hbP).dyadic.pow hdyadic.pow).mp hmerge
        have htotal : total (x :: (G ++ [b])) = b.length + total (x :: G) := by
          simp only [total_cons, total_append, total_nil]
          omega
        refine ⟨⟨G ++ [b], B', by simp, ?_, hsame₂, ?_, ?_, ?_⟩, ?_⟩
        · intro g hg
          rcases List.mem_append.mp hg with hg | hg
          · exact hfree g hg
          · rw [List.mem_singleton.mp hg]
            exact hfreeb
        · rw [htotal]
        · rwa [htotal]
        · have hleft := leftBuddy_of_right htiles rfl hdyadic hmod
          rw [buddySides_right hleft hbuddy, List.tail_cons] at hsides
          rw [htotal, hlen, ← Nat.two_mul, List.length_append, List.length_singleton]
          constructor
          · rw [hsides, List.replicate_succ', List.append_assoc]
            rfl
          · rw [hdouble, Nat.pow_succ', Nat.mul_assoc]
        · change 2 ^ 32 - (b.length + total (x :: G)) < 2 ^ 32 - total (x :: G)
          omega
  · simpa using (htiles.part (by simp)).dyadic

theorem apaDeleteFixNext_spec (h : Steady π w d (m :: (A ++ x :: B)))
    (hdrop : π.holds (used (m :: A) ++ used B) d.disk) :
    wp (apaDeleteFixNext x.start) d fun r e => ∃ y B', r = .ok y.start ∧ Fixed A x B A y B' ∧
      Taken .right A x B A y B' ∧ Steady π w e (m :: (A ++ y :: B')) ∧ π.holds (used (m :: A) ++ used B') e.disk := by
  obtain ⟨vx, hvx, hxbody, hxprev, hxnext⟩ := (show Steady π w d ((m :: A) ++ x :: B) from h).node
  have hxlength : vx.length = x.length := ApaHeader.length_of_body hxbody
  have hxstart : vx.start = x.start := ApaHeader.start_of_body hxbody
  rw [apaDeleteFixNext]
  simp only [wp_read_bind, header_of_view hvx, hxlength, hxstart, hxnext]
  refine wp_bind ((fixNextLoop_spec h).mono ?_)
  rintro r e ⟨G, B', rfl, hfree, hsame, rfl, hdyadic, hbuddy, hsides, hdouble⟩
  have htaken : ∀ y : ApaHeader, y.start = x.start → y.length = total (x :: G) →
      Taken .right A x (G ++ B') A y B' := by
    intro y hstart hlength
    rw [Taken, hsides, hstart, hlength, Side.skip_append (buddySides_head_right hbuddy)]
    exact ⟨rfl, doubled_length hdouble⟩
  cases G with
  | nil =>
    simp only [total_cons, total_nil, Nat.add_zero, ne_eq, not_true_eq_false, if_false, wp_pure_iff]
    refine ⟨x, B', rfl, ⟨⟨[], [], by simp⟩, .inl ⟨rfl, rfl, by simp⟩⟩, htaken x rfl (by simp), ?_, ?_⟩
    · simpa using h.same hsame
    · rw [hsame.disk]
      simpa using hdrop
  | cons g G =>
    set T := total (x :: g :: G) with hT
    have htiles := h.tiles
    rw [show m :: (A ++ x :: (g :: G ++ B')) = m :: (A ++ ((x :: g :: G) ++ B')) by simp]
      at h htiles
    have hx : x ∈ m :: (A ++ ((x :: g :: G) ++ B')) := by simp
    have hxslot := (htiles.part hx).slot
    have hx0 : x.start ≠ 0 := htiles.keys.ne_zero (y := x) (by simp)
    have hlong : x.length < T := by
      have := (htiles.part (x := g) (by simp)).two_le
      simp only [hT, total_cons]
      omega
    have hxT : x.start + T ≤ 2 ^ 32 := by
      have hsplit := htiles
      rw [← List.cons_append, tiles_append, tiles_append] at hsplit
      have := hsplit.2.1.top (by simp)
      have := hsplit.2.1.1
      omega
    -- the header behind the empty run is the MBR when the run ends the table
    obtain ⟨vb, hvb, hbslot, hxb⟩ : ∃ vb, d.view (headerLinks.head B' 0) = some vb ∧
        Slot (headerLinks.head B' 0) ∧ x.start ≠ headerLinks.head B' 0 := by
      cases B' with
      | nil =>
        obtain ⟨vm, hvm, -⟩ := (show Steady π w d ([] ++ m :: (A ++ (x :: g :: G ++ []))) from h).node
        refine ⟨vm, ?_, ⟨0, rfl⟩, hx0⟩
        rwa [← htiles.1]
      | cons b B' =>
        obtain ⟨vb, hvb, -⟩ := (show Steady π w d ((m :: (A ++ (x :: g :: G))) ++ b :: B') by
          simpa using h).node
        refine ⟨vb, hvb, (htiles.part (x := b) (by simp)).slot, ?_⟩
        have hdisj := htiles.keys
        rw [← List.append_assoc] at hdisj
        exact hdisj.disjoint (x := x) (y := b) (by simp) (by simp)
    set c := headerLinks.head B' 0 with hc
    obtain ⟨e₁, hget, hs⟩ := (h.shows hsame).get hbslot hvb
    dsimp only
    rw [if_pos (by omega)]
    simp only [wp_ofState_bind, hget, wp_modify_bind, wp_read_bind, wp_pure_iff]
    have hs₂ := (hs.setHeader hxslot fun h => { h with length := T }).setHeader hxslot
      fun h => { h with next := c }
    obtain ⟨created, hs₃⟩ := hs₂.makeEmpty hxslot (by simp [hvx])
    set e₂ := apaMakeEmpty x.start ((e₁.setHeader x.start fun h => { h with length := T }).setHeader
      x.start fun h => { h with next := c }) with he₂
    have hstart : (e₂.header x.start).start = x.start := by
      rw [hs₃.header]
      simp [hvx, hxstart, emptyHeader]
    rw [hstart]
    have hs₄ := (hs₃.setHeader hbslot fun h => { h with prev := x.start }).setDirty hbslot
      (by simp [hvb, hxb.symm])
    set y := emptyHeader x.start 0 0 T created with hy
    have hpart : Part y := by
      refine .empty hdyadic ?_ hxT hx0 created
      have := (htiles.part hx).large
      omega
    have hused : used (m :: (A ++ ([y] ++ B'))) = used (m :: A) ++ used B' := by
      rw [← List.cons_append, used_append, used_append, used_eq_nil (L := [_]) (by simp [hy]),
        List.nil_append]
    have hholds : π.holds (used (m :: A) ++ used B') d.disk := by
      rw [used_append, used_eq_nil hfree, List.nil_append] at hdrop
      exact hdrop
    have hsteady := h.flush_splice (Y := [y]) hs₄ (by simp) (by simp)
      (by simpa using htiles.merge (A := m :: A) (by simp) hpart rfl rfl) (hused ▸ hholds) (by simp)
      ⟨⟨emptyHeader x.start c vx.prev T created, ?_, rfl, ?_, rfl⟩, trivial⟩ ?_ ?_
      (by simp [hy, emptyHeader]) ?_
    · refine ⟨y, B', rfl,
        ⟨⟨[], g :: G, by simp, rfl, by simpa using hfree, rfl⟩, .inr ⟨rfl, hlong⟩⟩,
        htaken y rfl rfl, ?_, ?_⟩
      · exact hsteady.same (same_apaCacheFree hbslot)
      · have := (hsteady.same (same_apaCacheFree hbslot)).holds
        rwa [hused] at this
    · simp [hvx, hxb, hxstart, hy, emptyHeader]
    · exact hxprev
    · intro z hz
      obtain rfl := Option.some.inj (hvb.symm.trans hz)
      rw [← hc]
      exact ⟨{ vb with prev := x.start }, by simp [hvb, hxb.symm], rfl, rfl, rfl⟩
    · intro s hsD
      simp only [List.mem_cons, List.not_mem_nil, or_false, exists_eq_left, ← hc, hy,
        emptyHeader] at hsD ⊢
      grind
    · intro s hsD
      simp only [List.mem_cons, List.not_mem_nil, or_false, not_or] at hsD
      simp [hsD.1, hsD.2]

theorem Fixed.trans {x y z : ApaHeader} {A A' A'' B B' B'' : List ApaHeader}
    (h : Fixed A x B A' y B') (h' : Fixed A' y B' A'' z B'') : Fixed A x B A'' z B'' := by
  obtain ⟨⟨F, G, rfl, rfl, hF, hlength⟩, hfate⟩ := h
  obtain ⟨⟨F', G', rfl, rfl, hF', hlength'⟩, hfate'⟩ := h'
  refine ⟨⟨F' ++ F, G ++ G', by simp, by simp, fun f hf => ?_, ?_⟩, ?_⟩
  · simp only [List.mem_append] at hf hF hF'
    rcases hf with (hf | hf) | (hf | hf)
    · exact hF' f (.inl hf)
    · exact hF f (.inl hf)
    · exact hF f (.inr hf)
    · exact hF' f (.inr hf)
  · simp only [total_append, total_cons] at hlength hlength' ⊢
    omega
  · rcases hfate with ⟨hA, rfl, hB⟩ | ⟨hfree, hlt⟩
    · rcases hfate' with ⟨hA', rfl, hB'⟩ | hgrown
      · exact .inl ⟨by rw [← hA, ← hA'], rfl, by rw [← hB, ← hB']⟩
      · exact .inr hgrown
    · rcases hfate' with ⟨-, rfl, -⟩ | ⟨hfree', hlt'⟩
      · exact .inr ⟨hfree, hlt⟩
      · exact .inr ⟨hfree', by omega⟩

theorem Fixed.used_eq {y : ApaHeader} {A' B' : List ApaHeader} (h : Fixed A x B A' y B') :
    used A' = used A ∧ used B' = used B := by
  obtain ⟨⟨F, G, rfl, rfl, hF, -⟩, -⟩ := h
  rw [used_append, used_append, used_eq_nil fun f hf => hF f (List.mem_append_left _ hf),
    used_eq_nil fun g hg => hF g (List.mem_append_right _ hg)]
  simp

/-- The sides that are left when buddies were taken in on both sides in turn, `i` times. -/
def skipBoth (i : Nat) (W : List Side) : List Side :=
  (fun W => Side.right.skip (Side.left.skip W))^[i] W

private theorem fixBoth_spec (i : Nat) (h : Steady π w d (m :: (A ++ x :: B))) (hB : used B ≠ [])
    (hdrop : π.holds (used (m :: A) ++ used B) d.disk) :
    wp (fixBoth i x.start) d fun r e => ∃ A' y B', r = some y.start ∧ Fixed A x B A' y B' ∧
      buddySides A'.reverse y.start y.length B' =
        skipBoth i (buddySides A.reverse x.start x.length B) ∧ Steady π w e (m :: (A' ++ y :: B')) ∧ π.holds (used (m :: A') ++ used B') e.disk := by
  induction i generalizing d A x B with
  | zero =>
    rw [fixBoth, wp_pure_iff]
    exact ⟨A, x, B, rfl, ⟨⟨[], [], by simp⟩, .inl ⟨rfl, rfl, rfl⟩⟩, rfl, h, hdrop⟩
  | succ i ih =>
    have hne : B ≠ [] := by
      rintro rfl
      exact hB rfl
    rw [fixBoth]
    refine wp_bind ((apaDeleteFixPrev_spec h (.inl hne) hdrop).mono ?_)
    rintro r e ⟨A', y, rfl, hfixed, htaken, hsteady, hholds, -⟩
    refine wp_bind ((apaDeleteFixNext_spec hsteady hholds).mono ?_)
    rintro r e' ⟨z, B', rfl, hfixed', htaken', hsteady', hholds'⟩
    refine (ih hsteady' ?_ hholds').mono ?_
    · rw [hfixed'.used_eq.2]
      exact hB
    · rintro r e'' ⟨A'', z', B'', rfl, hfixed'', hsides, hrest⟩
      refine ⟨A'', z', B'', rfl, (hfixed.trans hfixed').trans hfixed'', ?_, hrest⟩
      rw [hsides, htaken'.1, htaken.1, skipBoth, skipBoth, Function.iterate_succ_apply]

/-! ### Cutting the end off -/

/-- The last partition of a table is not empty. -/
def LastUsed (P : List ApaHeader) : Prop := ∀ A x, P = A ++ [x] → x.isFree = false

/-- A pass of the loop that cuts the end of the chain off. -/
def cutPass (clink_mbr clink : Nat) : Prog Device (Nat ⊕ Option Nat) := do
  modify (apaCacheFree clink)
  let header ← read (·.header clink)
  match ← ofState (apaCacheGetHeader header.prev) with
  | .error _ => return .inr none
  | .ok clink =>
    modify (setHeader clink fun h => { h with next := 0 })
    modify (setDirty clink)
    let start := (← read (·.header clink)).start
    modify (setHeader clink_mbr fun h => { h with prev := start })
    modify (setDirty clink_mbr)
    let _ ← ofState apaCacheFlushAllDirty
    let header ← read (·.header clink)
    if header.type = APA_TYPE_FREE then return .inl clink
    else return .inr (some clink)

theorem cutLoop_eq (clink clink_mbr : Nat) : cutLoop clink clink_mbr = loop (cutPass clink_mbr) clink :=
  rfl

/-- A pass cuts the last partition off, and goes on where the one before it is empty. -/
theorem cutPass_spec {e : Device} {z u : ApaHeader} {I : List ApaHeader}
    (hsteady : Steady π w e (m :: (A ++ [z]))) (hholds : π.holds (used (m :: A)) e.disk)
    (hIu : m :: A = I ++ [u]) :
    wp (cutPass 0 z.start) e fun r e' => Steady π w e' (m :: A) ∧
      r = if u.isFree = true then .inl u.start else .inr (some u.start) := by
  have htiles := hsteady.tiles
  have hPz : m :: (A ++ [z]) = (I ++ [u]) ++ z :: [] := by
    rw [← hIu]
    simp
  have hPu : m :: (A ++ [z]) = I ++ u :: [z] := by
    rw [hPz]
    simp
  obtain ⟨vz, hvz, hzbody, hzprev, -⟩ := (hPz ▸ hsteady).node
  obtain ⟨vu, hvu, hubody, huprev, -⟩ := (hPu ▸ hsteady).node
  obtain ⟨vm, hvm, hmbody, -, hmnext⟩ := (show Steady π w e ([] ++ m :: (A ++ [z])) from hsteady).node
  rw [headerLinks.last_append] at hzprev
  have hzprev : vz.prev = u.start := hzprev
  have huP : u ∈ m :: (A ++ [z]) := by
    rw [hPu]
    simp
  have huslot := (htiles.part huP).slot
  have hzslot := (htiles.part (x := z) (by simp)).slot
  have hfreez : Same Slot e (e.apaCacheFree z.start) := same_apaCacheFree hzslot
  obtain ⟨e', hget, hs⟩ := (hsteady.shows hfreez).get huslot hvu
  have hheader : (e.apaCacheFree z.start).header z.start = vz := by
    rw [hfreez.header]
    exact header_of_view hvz
  unfold cutPass
  simp only [wp_modify_bind, wp_read_bind, hheader, hzprev, wp_ofState_bind, hget]
  have hustart : vu.start = u.start := ApaHeader.start_of_body hubody
  have hm0 : m.start = 0 := htiles.1
  rw [hm0] at hvm
  have hs₂ := (hs.setHeader huslot fun h => { h with next := 0 }).setDirty huslot (by simp [hvu])
  have hstart : ((setDirty u.start (e'.setHeader u.start fun h => { h with next := 0 })).header
      u.start).start = u.start := by
    rw [hs₂.header]
    simp [hvu, hustart]
  rw [hstart]
  have hs₃ := (hs₂.setHeader ⟨0, rfl⟩ fun h => { h with prev := u.start }).setDirty (s := 0) ⟨0, rfl⟩
    (by
      by_cases hu0 : 0 = u.start
      · simp [← hu0, hvm]
      · simp [hu0, hvm])
  have hlast : headerLinks.last 0 (m :: A) = u.start := by
    rw [hIu, headerLinks.last_append]
    rfl
  have htiles' : Tiles 0 (m :: A) := by
    rw [← List.cons_append, tiles_append] at htiles
    exact htiles.1
  have hA0 : A = [] ↔ u.start = 0 := by
    constructor
    · rintro rfl
      rw [← hlast, headerLinks.last_cons, headerLinks.last_nil, headerLinks_key, hm0]
    · intro hu0
      cases I with
      | nil => exact (List.cons.inj hIu).2
      | cons i I =>
        obtain ⟨rfl, rfl⟩ := List.cons.inj hIu
        exact (htiles'.keys.ne_zero (y := u) (by simp) hu0).elim
  have hring := hsteady.ring.truncate (W := fun t => if t = 0 then
      (if t = u.start then (e.view t).map (fun h => { h with next := 0 }) else e.view t).map
        (fun h => { h with prev := u.start })
    else if t = u.start then (e.view t).map (fun h => { h with next := 0 }) else e.view t)
    (A := A) (x := z) (B := []) htiles.keys ?_ ?_ ?_
  · have hflush := hsteady.flush hs₃ hring htiles' hholds (by simp) ?_ ?_
    · obtain ⟨vu', hvu', hubody', -, -⟩ := (show Steady π w _ (I ++ u :: []) by
        rw [← hIu]
        exact hflush.2.1).node
      rw [header_of_view hvu']
      have htype : vu'.type = APA_TYPE_FREE ↔ u.isFree = true := by
        rw [← hubody', ApaHeader.isFree, beq_iff_eq]
        rfl
      by_cases hufree : u.isFree = true
      · simp only [htype, if_pos hufree, wp_pure_iff, and_true]
        exact hflush.2.1
      · simp only [htype, if_neg hufree, wp_pure_iff, and_true]
        exact hflush.2.1
    · intro s hsD
      simp only [List.mem_cons, List.not_mem_nil, or_false] at hsD
      rcases hsD with rfl | rfl
      · exact ⟨m, List.mem_cons_self, hm0⟩
      · refine ⟨u, ?_, rfl⟩
        rw [hIu]
        simp
    · intro y hy hyD
      simp only [List.mem_cons, List.not_mem_nil, or_false, not_or] at hyD
      refine ⟨by simp [hyD.1, hyD.2], y, ?_, rfl⟩
      simp only [List.mem_cons, List.mem_append] at hy ⊢
      grind
  · intro v hv
    rw [hlast] at hv ⊢
    obtain rfl := Option.some.inj (hvu.symm.trans hv)
    by_cases hu0 : u.start = 0
    · refine ⟨{ vu with next := 0, prev := u.start }, ?_, rfl, rfl, ?_, fun _ => hu0⟩
      · rw [hu0] at hvu
        simp [hu0, hvu]
      · exact fun hne => (hne (hA0.mpr hu0)).elim
    · exact ⟨{ vu with next := 0 }, by simp [hu0, hvu], rfl, rfl, fun _ => rfl,
        fun hnil => (hu0 (hA0.mp hnil)).elim⟩
  · intro hne v hv
    rw [headerLinks_key, hm0] at hv ⊢
    have hu0 : ¬ 0 = u.start := fun heq => hne (hA0.mpr heq.symm)
    obtain rfl := Option.some.inj (hvm.symm.trans hv)
    exact ⟨{ vm with prev := u.start }, by simp [hu0, hvm], rfl, hlast.symm, rfl⟩
  · intro y hy hne
    rw [hlast] at hne
    have hy0 := htiles'.keys.ne_zero hy
    simp only [headerLinks_key] at hne hy0 ⊢
    simp [hne, hy0]

theorem cutLoop_spec (h : Steady π w d (m :: (A ++ [x]))) (hdrop : π.holds (used (m :: A)) d.disk) :
    wp (cutLoop x.start 0) d fun r e => ∃ A' F u, A = A' ++ F ∧ (∀ f ∈ F, f.isFree = true) ∧
      r = some u ∧ Slot u ∧ LastUsed (m :: A') ∧ Steady π w e (m :: A') := by
  rw [cutLoop_eq]
  refine wp_loop (fun clink e => ∃ A' z F, clink = z.start ∧ (A = A' ++ F) ∧
      (∀ f ∈ F, f.isFree = true) ∧ Steady π w e (m :: (A' ++ [z])) ∧
      π.holds (used (m :: A')) e.disk)
    (fun clink _ => clink) ?_ ⟨A, x, [], rfl, by simp, by simp, h, hdrop⟩
  rintro clink e ⟨A', z, F, rfl, rfl, hfree, hsteady, hholds⟩
  obtain ⟨I, u, hIu⟩ : ∃ I u, m :: A' = I ++ [u] :=
    ⟨_, _, (List.dropLast_append_getLast (by simp)).symm⟩
  have htiles := hsteady.tiles
  have hPu : m :: (A' ++ [z]) = I ++ u :: [z] := by
    rw [← List.cons_append, hIu]
    simp
  have huP : u ∈ m :: (A' ++ [z]) := by
    rw [hPu]
    simp
  refine (cutPass_spec hsteady hholds hIu).mono ?_
  rintro r e' ⟨hsteady', rfl⟩
  split
  · rename_i hgo
    split at hgo
    · rename_i hufree
      obtain rfl := Sum.inl.inj hgo
      obtain ⟨A'', rfl, rfl⟩ := exists_concat_of_free htiles hIu hufree
      refine ⟨⟨A'', u, u :: F, rfl, by simp, ?_, hsteady', ?_⟩, ?_⟩
      · intro f hf
        rcases List.mem_cons.mp hf with rfl | hf
        · exact hufree
        · exact hfree f hf
      · have hused : used (m :: (A'' ++ [u])) = used (m :: A'') := by
          rw [← List.cons_append, used_append, used_eq_nil (L := [u]) (by simpa using hufree),
            List.append_nil]
        exact hused ▸ hsteady'.holds
      · have hlt := htiles.pairwise
        rw [hPu, List.pairwise_append] at hlt
        have := List.rel_of_pairwise_cons hlt.2.1 (List.mem_singleton.mpr rfl)
        have := (htiles.part huP).two_le
        omega
    · cases hgo
  · rename_i hstop
    split at hstop
    · cases hstop
    · rename_i hused
      obtain rfl := Sum.inr.inj hstop
      refine ⟨A', F, u.start, rfl, hfree, rfl, (htiles.part huP).slot, fun I' u' hu' => ?_, hsteady'⟩
      rw [hIu] at hu'
      obtain ⟨-, hu'⟩ := List.append_inj' hu' rfl
      rw [← (List.cons.inj hu').1]
      simpa using hused

/-- The table behind the MBR `m` was `A`, `x`, `B` and is `L` after `x` was deleted. -/
inductive Deleted (m : ApaHeader) (A : List ApaHeader) (x : ApaHeader) (B : List ApaHeader) :
    List ApaHeader → Prop
  | merged {A' F G B' : List ApaHeader} {y : ApaHeader} (hbefore : A = A' ++ F)
      (hbehind : B = G ++ B') (hempty : ∀ f ∈ F ++ G, f.isFree = true) (hfree : y.isFree = true)
      (hlength : y.length = total (F ++ x :: G)) (hmore : B ≠ []) : Deleted m A x B (A' ++ y :: B')
  | cut {A' F : List ApaHeader} (hend : B = []) (hbefore : A = A' ++ F)
      (hempty : ∀ f ∈ F, f.isFree = true) (hlast : LastUsed (m :: A')) : Deleted m A x B A'

theorem Deleted.used_eq {L : List ApaHeader} (h : Deleted m A x B L) :
    used L = used A ++ used B := by
  cases h with
  | merged hbefore hbehind hempty hfree hlength hmore =>
    rw [hbefore, hbehind, used_append, used_append, used_append,
      used_eq_nil fun f hf => hempty f (List.mem_append_left _ hf),
      used_eq_nil fun g hg => hempty g (List.mem_append_right _ hg), used_cons, if_pos hfree]
    simp
  | cut hend hbefore hempty hlast =>
    rw [hend, hbefore, used_append, used_eq_nil hempty]
    simp

theorem LastUsed.replace {y : ApaHeader} (h : LastUsed (A ++ x :: B))
    (hy : x.isFree = false → y.isFree = false) : LastUsed (A ++ y :: B) := by
  intro C z hz
  rcases List.eq_nil_or_concat B with rfl | ⟨B', b, rfl⟩
  · obtain ⟨-, hyz⟩ := List.append_inj' hz rfl
    rw [← (List.cons.inj hyz).1]
    exact hy (h A x rfl)
  · have hb := h (A ++ x :: B') b (by simp)
    have hz' : (A ++ y :: B') ++ [b] = C ++ [z] := by simpa using hz
    obtain ⟨-, hbz⟩ := List.append_inj' hz' rfl
    rwa [← (List.cons.inj hbz).1]

theorem LastUsed.used_ne_nil (h : LastUsed (m :: (A ++ x :: B))) : B = [] ∨ used B ≠ [] := by
  rcases List.eq_nil_or_concat B with rfl | ⟨B', b, rfl⟩
  · exact .inl rfl
  · have hb := h (m :: (A ++ x :: B')) b (by simp)
    refine .inr ?_
    rw [List.concat_eq_append, used_append, used_cons]
    simp [hb]

theorem Deleted.lastUsed {L : List ApaHeader} (h : Deleted m A x B L)
    (hlast : LastUsed (m :: (A ++ x :: B))) : LastUsed (m :: L) := by
  cases h with
  | cut hend hbefore hempty hlast => exact hlast
  | @merged A' F G B' y hbefore hbehind hempty hfree hlength hmore =>
    subst hbefore hbehind
    rcases List.eq_nil_or_concat B' with rfl | ⟨B'', b, rfl⟩
    · rw [List.append_nil] at hmore
      obtain ⟨G', g, rfl⟩ := (List.eq_nil_or_concat G).resolve_left hmore
      have hg := hlast (m :: (A' ++ F ++ x :: G')) g (by simp)
      have hg' := hempty g (by simp)
      rw [hg] at hg'
      cases hg'
    · have hb := hlast (m :: (A' ++ F ++ x :: (G ++ B''))) b (by simp)
      intro C z hz
      have hz' : (m :: (A' ++ y :: B'')) ++ [b] = C ++ [z] := by simpa using hz
      obtain ⟨-, hbz⟩ := List.append_inj' hz' rfl
      rw [← (List.cons.inj hbz).1]
      exact hb

/-- The empty block that `x` between `A` and `B` has grown to in `L`, and the sides on which it would grow on. -/
structure Grown (A : List ApaHeader) (x : ApaHeader) (B L A' : List ApaHeader) (y : ApaHeader)
    (B' : List ApaHeader) : Prop where
  eq : L = A' ++ y :: B'
  before : A' <+: A
  behind : B' <:+ B
  free : y.isFree = true
  sides : buddySides A'.reverse y.start y.length B' =
    skipBoth 2 (buddySides A.reverse x.start x.length B)

/-- `apaDelete` takes `x` out of the table, and where `x` was not the last one, an empty block grows in its place. -/
theorem apaDelete_grown (h : Steady π w d (m :: (A ++ x :: B))) (hB : B = [] ∨ used B ≠ [])
    (hdrop : π.holds (used (m :: A) ++ used B) d.disk) :
    wp (apaDelete x.start) d fun r e => r = 0 ∧ ∃ L, Deleted m A x B L ∧ Steady π w e (m :: L) ∧
      (B ≠ [] → ∃ A' y B', Grown A x B L A' y B') := by
  have htiles := h.tiles
  obtain ⟨vx, hvx, hxbody, hxprev, hxnext⟩ := (show Steady π w d ((m :: A) ++ x :: B) from h).node
  obtain ⟨vm, hvm, -⟩ := (show Steady π w d ([] ++ m :: (A ++ x :: B)) from h).node
  have hxstart : vx.start = x.start := ApaHeader.start_of_body hxbody
  have hxlength : vx.length = x.length := ApaHeader.length_of_body hxbody
  have hx0 : x.start ≠ 0 := htiles.keys.ne_zero (y := x) (by simp)
  have hxslot := (htiles.part (x := x) (by simp)).slot
  have hm0 : m.start = 0 := htiles.1
  rw [hm0] at hvm
  rw [apaDelete]
  simp only [wp_read_bind, header_of_view hvx, hxstart, hx0, if_false, hxnext]
  cases B with
  | nil =>
    obtain ⟨e, hget, hsame⟩ := apaCacheGetHeader_ok (S := Slot) hvm ⟨0, rfl⟩
    simp only [headerLinks.head_nil, if_true, wp_ofState_bind, hget]
    have h' := h.same hsame
    refine wp_bind ((cutLoop_spec h' ?_).mono ?_)
    · rw [hsame.disk]
      simpa using hdrop
    · rintro r e ⟨A', F, u, rfl, hfree, rfl, huslot, hlast, hsteady⟩
      simp only [wp_modify_bind, wp_pure_iff]
      exact ⟨trivial, A', .cut rfl rfl hfree hlast,
        (hsteady.same (same_apaCacheFree ⟨0, rfl⟩)).same (same_apaCacheFree huslot),
        fun hne => (hne rfl).elim⟩
  | cons b B =>
    have hb0 : b.start ≠ 0 := htiles.keys.ne_zero (y := b) (by simp)
    rw [headerLinks.head_cons, headerLinks_key, if_neg hb0]
    refine wp_bind ((fixBoth_spec 2 h (by simpa using hB) hdrop).mono ?_)
    rintro r e ⟨A', y, B', rfl, hfixed, hsides, hsteady, hholds⟩
    have hytiles := hsteady.tiles
    obtain ⟨vy, hvy, hybody, hyprev, hynext⟩ := (show Steady π w e ((m :: A') ++ y :: B') from hsteady).node
    have hystart : vy.start = y.start := ApaHeader.start_of_body hybody
    have hylength : vy.length = y.length := ApaHeader.length_of_body hybody
    have hypart := hytiles.part (x := y) (by simp)
    have hyslot := hypart.slot
    simp only [wp_read_bind, header_of_view hvy, hystart, hylength, hxlength]
    rcases hfixed.fate with ⟨rfl, rfl, rfl⟩ | ⟨hyfree, hlt⟩
    · rw [if_pos ⟨rfl, rfl⟩]
      simp only [wp_modify_bind, wp_ofState_bind, wp_pure_iff]
      obtain ⟨created, hs⟩ := (hsteady.shows (.refl _ _)).makeEmpty hyslot (by simp [hvy])
      have hpart : Part (emptyHeader y.start 0 0 y.length created) :=
        .empty hypart.dyadic hypart.large hypart.top hx0 created
      have hused : used (m :: (A' ++ ([emptyHeader y.start 0 0 y.length created] ++ b :: B))) =
          used (m :: A') ++ used (b :: B) := by
        rw [← List.cons_append, used_append, used_append, used_eq_nil (L := [_]) (by simp),
          List.nil_append]
      have hsteady' := hsteady.flush_splice (X := [y])
        (Y := [emptyHeader y.start 0 0 y.length created]) hs (by simp) (by simp)
        (by simpa using hytiles.merge (A := m :: A') (X := [y]) (by simp) hpart rfl (by simp [emptyHeader]))
        (hused ▸ hholds) (by simp)
        ⟨⟨emptyHeader y.start vy.next vy.prev y.length created, ?_, rfl, hyprev, hynext⟩, trivial⟩
        ?_ (by simp [emptyHeader]) (by simp [emptyHeader]) (fun s hs => ?_)
      · exact ⟨trivial, _, .merged (F := []) (G := []) (by simp) rfl (by simp) rfl
          (by simp [emptyHeader]) (by simp), hsteady'.same (same_apaCacheFree hyslot),
          fun _ => ⟨A', _, b :: B, rfl, List.prefix_refl _, List.suffix_refl _, rfl, hsides⟩⟩
      · simp [hvy, hystart, hylength, emptyHeader]
      · intro z hz
        obtain ⟨vb, hvb, -, hbprev, -⟩ := (show Steady π w e ((m :: (A' ++ [y])) ++ b :: B) by
          simpa using hsteady).node
        have hby : b.start ≠ y.start := by
          have hsplit := hytiles
          rw [← List.cons_append, tiles_append] at hsplit
          obtain ⟨-, hys, -, hbs, -⟩ := hsplit
          have := hypart.two_le
          omega
        rw [headerLinks.head_cons, headerLinks_key] at hz ⊢
        obtain rfl := Option.some.inj (hvb.symm.trans hz)
        refine ⟨vb, by simp [hby, hvb], rfl, ?_, rfl⟩
        rw [hbprev]
        simp [headerLinks.last_append, emptyHeader]
      · simp only [List.mem_singleton] at hs
        simp [hs]
    · rw [if_neg (by omega)]
      simp only [wp_modify_bind, wp_pure_iff]
      obtain ⟨F, G, hA, hB', hempty, hlength⟩ := hfixed.shape
      exact ⟨trivial, _, .merged hA hB' hempty hyfree hlength (by simp),
        hsteady.same (same_apaCacheFree hyslot), fun _ => ⟨A', y, B', rfl, ⟨F, hA.symm⟩, ⟨G, hB'.symm⟩,
          hyfree, hsides⟩⟩

theorem apaDelete_spec (h : Steady π w d (m :: (A ++ x :: B))) (hB : B = [] ∨ used B ≠ [])
    (hdrop : π.holds (used (m :: A) ++ used B) d.disk) :
    wp (apaDelete x.start) d fun r e => r = 0 ∧ ∃ L, Deleted m A x B L ∧ Steady π w e (m :: L) := by
  refine (apaDelete_grown h hB hdrop).mono ?_
  rintro r e ⟨hr, L, hdeleted, hsteady, -⟩
  exact ⟨hr, L, hdeleted, hsteady⟩

end Device

end HddChecker.Apa
