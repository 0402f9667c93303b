import HddChecker.Pfs.Coherent
import HddChecker.Pfs.Path

/-!
# The uses of blocks

A search for a file counts the uses of an inode by the place of the inode, the cache those of a buffer, which holds one block after the other. Here the calls of the cache are followed in the uses of the blocks: whatever buffer is taken and whatever block leaves it, they change as a search counts them.
-/

namespace HddChecker.Pfs.Cache

open HddChecker State
open Journal (PFS_CACHE_FLAG_MASKTYPE)

/-- How often a block is in use. -/
def uses (c : State) (k : Key) : Nat :=
  match lookup k.1 k.2.1 k.2.2 c with
  | some i => (c.pfsCacheBuf i).nused
  | none => 0

variable {M : Mounts} {c c' : State} {i x m sub block : Nat} {k : Key}

/-! ### Buffers and blocks -/

theorem uses_key (h : Content M c) (hin : InCache c i) (hmount : (c.pfsCacheBuf i).pfsMount ≠ 0) :
    uses c (c.pfsCacheBuf i).key = (c.pfsCacheBuf i).nused := by
  unfold uses
  split
  · rename_i j hfound
    obtain ⟨hj, -, hkey⟩ := lookup_some hfound
    rw [h.unique i j hin hj hmount hkey]
  · rename_i hnone
    exact absurd rfl (lookup_none hnone hmount hin)

theorem uses_absent (habsent : ∀ j, InCache c j → (c.pfsCacheBuf j).key ≠ k) : uses c k = 0 := by
  unfold uses
  split
  · rename_i j hfound
    obtain ⟨hj, -, hkey⟩ := lookup_some hfound
    exact absurd hkey (habsent j hj)
  · rfl

/-- A call that changes one buffer leaves the uses of the blocks that are in others; a block that leaves the buffer is not in use. -/
theorem uses_other (h : Content M c) (h' : Content M c') (hsize : c'.pfsCacheNumBuffers = c.pfsCacheNumBuffers)
    (hother : ∀ j, j ≠ x → (c'.pfsCacheBuf j).key = (c.pfsCacheBuf j).key ∧ (c'.pfsCacheBuf j).nused = (c.pfsCacheBuf j).nused)
    (hk : k.1 ≠ 0) (hnew : InCache c x → (c'.pfsCacheBuf x).key ≠ k)
    (hold : InCache c x → (c.pfsCacheBuf x).key = k → (c.pfsCacheBuf x).nused = 0) : uses c' k = uses c k := by
  by_cases hheld : ∃ j, InCache c' j ∧ (c'.pfsCacheBuf j).key = k
  · obtain ⟨j, hj, hkey'⟩ := hheld
    have hin := (inCache_of_size hsize).mp hj
    have hne : j ≠ x := by
      rintro rfl
      exact hnew hin hkey'
    obtain ⟨hkey, hnused⟩ := hother j hne
    have hkey : (c.pfsCacheBuf j).key = k := hkey.symm.trans hkey'
    have hmount' : (c'.pfsCacheBuf j).pfsMount ≠ 0 := fun hz => hk ((congrArg Prod.fst hkey').symm.trans hz)
    have hmount : (c.pfsCacheBuf j).pfsMount ≠ 0 := fun hz => hk ((congrArg Prod.fst hkey).symm.trans hz)
    calc uses c' k = (c'.pfsCacheBuf j).nused := hkey' ▸ uses_key h' hj hmount'
      _ = (c.pfsCacheBuf j).nused := hnused
      _ = uses c k := (hkey ▸ uses_key h hin hmount).symm
  · rw [uses_absent fun j hj hkey => hheld ⟨j, hj, hkey⟩]
    by_cases hx : InCache c x ∧ (c.pfsCacheBuf x).key = k
    · obtain ⟨hin, hkey⟩ := hx
      have hmount : (c.pfsCacheBuf x).pfsMount ≠ 0 := fun hz => hk ((congrArg Prod.fst hkey).symm.trans hz)
      have hzero : uses c k = (c.pfsCacheBuf x).nused := hkey ▸ uses_key h hin hmount
      rw [hzero, hold hin hkey]
    · refine (uses_absent fun j hj hkey => ?_).symm
      by_cases hne : j = x
      · exact hx ⟨hne ▸ hj, hne ▸ hkey⟩
      · exact hheld ⟨j, (inCache_of_size hsize).mpr hj, (hother j hne).1.trans hkey⟩

/-- No buffer is given to another block or counted differently. -/
theorem uses_same (h : Content M c) (h' : Content M c') (hsize : c'.pfsCacheNumBuffers = c.pfsCacheNumBuffers)
    (hsame : ∀ j, (c'.pfsCacheBuf j).key = (c.pfsCacheBuf j).key ∧ (c'.pfsCacheBuf j).nused = (c.pfsCacheBuf j).nused)
    (hk : k.1 ≠ 0) : uses c' k = uses c k := by
  have hnot : ¬ InCache c 0 := fun hin => absurd hin.1 (by decide)
  exact uses_other h h' hsize (fun j _ => hsame j) hk (fun hin => absurd hin hnot) fun hin => absurd hin hnot

/-- A call that changes one buffer, and gives it to another block only if it is not in use. -/
theorem uses_update (h : Content M c) (h' : Content M c') (hsize : c'.pfsCacheNumBuffers = c.pfsCacheNumBuffers)
    (hother : ∀ j, j ≠ x → (c'.pfsCacheBuf j).key = (c.pfsCacheBuf j).key ∧ (c'.pfsCacheBuf j).nused = (c.pfsCacheBuf j).nused)
    (hin : InCache c x) (hmount : (c'.pfsCacheBuf x).pfsMount ≠ 0)
    (hold : (c.pfsCacheBuf x).key = (c'.pfsCacheBuf x).key ∨ (c.pfsCacheBuf x).nused = 0) (hk : k.1 ≠ 0) :
    uses c' k = Function.update (uses c) (c'.pfsCacheBuf x).key (c'.pfsCacheBuf x).nused k := by
  by_cases hself : k = (c'.pfsCacheBuf x).key
  · subst hself
    rw [Function.update_self]
    exact uses_key h' ((inCache_of_size hsize).mpr hin) hmount
  · rw [Function.update_of_ne hself]
    apply uses_other h h' hsize hother hk
    · exact fun _ heq => hself heq.symm
    · exact fun _ heq => hold.resolve_left fun hsame => hself (heq.symm.trans hsame)

/-! ### Calls -/

private theorem refer_buffers (type : UInt16) (i : Nat) (c : State) : (refer type i c).pfsCacheBuf =
    Function.update c.pfsCacheBuf i
      { c.pfsCacheBuf i with type := type, nused := ((c.pfsCacheBuf i).nused + 1) % 2 ^ 16 } := by
  obtain ⟨d, hd⟩ : ∃ d, d = c.modify i fun b => { b with type := type } := ⟨_, rfl⟩
  have hself : d.pfsCacheBuf i = { c.pfsCacheBuf i with type := type } := hd ▸ modify_self ..
  obtain ⟨e, he⟩ : ∃ e, e = if (d.pfsCacheBuf i).nused = 0 then pfsCacheUnLink i d else d := ⟨_, rfl⟩
  have hsame : e.pfsCacheBuf = d.pfsCacheBuf := by
    rw [he]
    split <;> rfl
  have hrefer : refer type i c = pfsCacheUsedAdd i e := by
    rw [he, hd]
    rfl
  rw [hrefer]
  show Function.update e.pfsCacheBuf i { e.pfsCacheBuf i with nused := ((e.pfsCacheBuf i).nused + 1) % 2 ^ 16 } = _
  rw [hsame, hself, hd]
  exact Function.update_idem ..

/-- A buffer without references takes a block that is in none. -/
private theorem get_taken {flags : UInt16} (hnone : lookup m sub block c = none) (hfull : isFull c = false)
    (hworks : (pfsCacheGetData M m sub block flags c).1 = none → isFull c = true) :
    ∃ c', pfsCacheGetData M m sub block flags c = (some (c.next 0), c') ∧
      (c'.pfsCacheBuf (c.next 0)).key = (m, sub, block) ∧ (c'.pfsCacheBuf (c.next 0)).nused = 1 ∧
      ∀ j, j ≠ c.next 0 → c'.pfsCacheBuf j = (evict M c).pfsCacheBuf j := by
  obtain ⟨d, hd⟩ : ∃ d, d = take m sub block (flags &&& PFS_CACHE_FLAG_MASKTYPE) (c.next 0) (evict M c) := ⟨_, rfl⟩
  have hself : d.pfsCacheBuf (c.next 0) = { (evict M c).pfsCacheBuf (c.next 0) with
      dirty := false, type := flags &&& PFS_CACHE_FLAG_MASKTYPE, pfsMount := m, sub := sub, block := block, nused := 1 } :=
    hd ▸ Function.update_self ..
  have hother : ∀ j, j ≠ c.next 0 → d.pfsCacheBuf j = (evict M c).pfsCacheBuf j := fun j hj =>
    hd ▸ Function.update_of_ne hj _ _
  have hget : pfsCacheGetData M m sub block flags c =
      if noload flags then (some (c.next 0), d)
      else if (transferRead (c.next 0) d).1 then (some (c.next 0), (transferRead (c.next 0) d).2)
      else (none, pfsCacheFree (c.next 0) ((transferRead (c.next 0) d).2.modify (c.next 0) fun b => { b with pfsMount := 0 })) := by
    unfold pfsCacheGetData
    rw [hnone, hd]
    simp only [hfull, Bool.false_eq_true, if_false]
    generalize transferRead (c.next 0) (take m sub block (flags &&& PFS_CACHE_FLAG_MASKTYPE) (c.next 0) (evict M c)) = read
    obtain ⟨works, e⟩ := read
    cases works <;> rfl
  rw [hget] at hworks ⊢
  by_cases hload : noload flags = true
  · rw [if_pos hload]
    exact ⟨d, rfl, by rw [hself]; rfl, by rw [hself], hother⟩
  · rw [if_neg hload] at hworks ⊢
    by_cases hreads : (transferRead (c.next 0) d).1 = true
    · rw [if_pos hreads]
      have hread : (transferRead (c.next 0) d).2.pfsCacheBuf = Function.update d.pfsCacheBuf (c.next 0)
          { d.pfsCacheBuf (c.next 0) with data := d.disk (d.pfsCacheBuf (c.next 0)).key, dirty := false } := rfl
      have hbuf : (transferRead (c.next 0) d).2.pfsCacheBuf (c.next 0) = { d.pfsCacheBuf (c.next 0) with
          data := d.disk (d.pfsCacheBuf (c.next 0)).key, dirty := false } := Function.update_self ..
      refine ⟨_, rfl, ?_, ?_, fun j hj => ?_⟩
      · rw [hbuf]
        show (d.pfsCacheBuf (c.next 0)).key = _
        rw [hself]
        rfl
      · rw [hbuf]
        show (d.pfsCacheBuf (c.next 0)).nused = _
        rw [hself]
      · rw [hread, Function.update_of_ne hj]
        exact hother j hj
    · rw [if_neg hreads] at hworks
      exact absurd (hworks rfl) (by rw [hfull]; decide)

/-- What a call does to the uses of the blocks. -/
def effect (M : Mounts) (c : State) : Call → (Key → Nat) → Key → Nat
  | .get m sub block flags, u =>
    if (pfsCacheGetData M m sub block flags c).1.isSome then Function.update u (m, sub, block) (u (m, sub, block) + 1)
    else u
  | .usedAdd clink, u => Function.update u (c.pfsCacheBuf clink).key (u (c.pfsCacheBuf clink).key + 1)
  | .free clink, u => Function.update u (c.pfsCacheBuf clink).key (u (c.pfsCacheBuf clink).key - 1)
  | _, u => u

private theorem get_uses {flags : UInt16} (h : Inv M c) (hallowed : Allowed M c (.get m sub block flags))
    (hproper : Proper M c (.get m sub block flags)) (hk : k.1 ≠ 0) :
    uses (pfsCacheGetData M m sub block flags c).2 k = effect M c (.get m sub block flags) (uses c) k := by
  obtain ⟨⟨y, hkeeps⟩, -, -⟩ := get_spec h hallowed.1 hproper hallowed.2
  cases hlookup : lookup m sub block c with
  | some i =>
    obtain ⟨hin, hmount, hkey⟩ := lookup_some hlookup
    have hget : pfsCacheGetData M m sub block flags c = (some i, refer (flags &&& PFS_CACHE_FLAG_MASKTYPE) i c) := by
      unfold pfsCacheGetData
      rw [hlookup]
    rw [hget] at hkeeps
    rw [effect, hget]
    have hbuffers := refer_buffers (flags &&& PFS_CACHE_FLAG_MASKTYPE) i c
    generalize refer (flags &&& PFS_CACHE_FLAG_MASKTYPE) i c = c' at *
    have hself := (congrFun hbuffers i).trans (Function.update_self ..)
    have hkey' : (c'.pfsCacheBuf i).key = (m, sub, block) := by
      rw [hself]
      exact hkey
    have hnused : (c'.pfsCacheBuf i).nused = uses c (m, sub, block) + 1 := by
      have hless := (hproper.2 i hlookup).1
      rw [hself, ← hkey, uses_key h.content hin hmount]
      exact Nat.mod_eq_of_lt (by omega)
    have hother : ∀ j, j ≠ i → (c'.pfsCacheBuf j).key = (c.pfsCacheBuf j).key ∧
        (c'.pfsCacheBuf j).nused = (c.pfsCacheBuf j).nused := by
      intro j hj
      rw [hbuffers, Function.update_of_ne hj]
      exact ⟨rfl, rfl⟩
    have huses := uses_update (k := k) h.content hkeeps.inv.content hkeeps.size hother hin
      (fun hz => hallowed.1 ((congrArg Prod.fst hkey').symm.trans hz)) (.inl (hkey.trans hkey'.symm)) hk
    rw [hkey', hnused] at huses
    exact huses
  | none =>
    by_cases hfull : isFull c = true
    · have hget : pfsCacheGetData M m sub block flags c = (none, c) := by
        unfold pfsCacheGetData
        rw [hlookup]
        exact if_pos hfull
      rw [effect, hget]
      rfl
    · rw [Bool.not_eq_true] at hfull
      obtain ⟨l, hl⟩ := h.idle
      obtain ⟨hin, hzero⟩ := (hl.mem_iff _).mp (hl.ring.of_not_full hfull)
      have hsteady := (evict_spec (M := M) h.content hin).1.steady
      obtain ⟨c', hget, hkey, hone, hother⟩ := get_taken hlookup hfull hallowed.2
      rw [hget] at hkeeps
      rw [effect, hget]
      have habsent : uses c (m, sub, block) = 0 := uses_absent fun j hj => lookup_none hlookup hallowed.1 hj
      have huses := uses_update (k := k) h.content hkeeps.inv.content hkeeps.size
        (fun j hj => by rw [hother j hj]; exact ⟨hsteady.key j, hsteady.nused j⟩) hin
        (fun hz => hallowed.1 ((congrArg Prod.fst hkey).symm.trans hz)) (.inr hzero) hk
      rw [hkey, hone] at huses
      rw [habsent]
      exact huses

/-- Every call of a proper run changes the uses of the blocks by its effect, and those of no other block. -/
theorem exec_uses (h : Inv M c) {call : Call} (hallowed : Allowed M c call) (hproper : Proper M c call) (hk : k.1 ≠ 0) :
    uses (exec M call c) k = effect M c call (uses c) k := by
  obtain ⟨y, hkeeps⟩ := exec_spec h hallowed hproper
  have hsame := uses_same (k := k) h.content hkeeps.inv.content hkeeps.size
  cases call with
  | get m sub block flags => exact get_uses h hallowed hproper hk
  | usedAdd clink =>
    obtain ⟨hin, hused⟩ := hallowed
    have hmount := h.content.referenced clink hin (by omega)
    have hself : (exec M (.usedAdd clink) c).pfsCacheBuf clink =
        { c.pfsCacheBuf clink with nused := ((c.pfsCacheBuf clink).nused + 1) % 2 ^ 16 } := Function.update_self ..
    have hother : ∀ j, j ≠ clink → (exec M (.usedAdd clink) c).pfsCacheBuf j = c.pfsCacheBuf j := fun j hj =>
      Function.update_of_ne hj _ _
    have hless : (c.pfsCacheBuf clink).nused < 65535 := hproper
    have hkey : ((exec M (.usedAdd clink) c).pfsCacheBuf clink).key = (c.pfsCacheBuf clink).key := by
      rw [hself]
      rfl
    have hnused : ((exec M (.usedAdd clink) c).pfsCacheBuf clink).nused = (c.pfsCacheBuf clink).nused + 1 := by
      rw [hself]
      exact Nat.mod_eq_of_lt (by omega)
    have huses := uses_update (k := k) h.content hkeeps.inv.content hkeeps.size
      (fun j hj => by rw [hother j hj]; exact ⟨rfl, rfl⟩) hin (by rw [hself]; exact hmount) (.inl hkey.symm) hk
    rw [hkey, hnused] at huses
    rw [huses, effect, uses_key h.content hin hmount]
  | free clink =>
    obtain ⟨hin, hused⟩ := hallowed
    have hmount := h.content.referenced clink hin (by omega)
    have hbuffers : (exec M (.free clink) c).pfsCacheBuf =
        Function.update c.pfsCacheBuf clink { c.pfsCacheBuf clink with nused := (c.pfsCacheBuf clink).nused - 1 } := by
      show (pfsCacheFree clink c).pfsCacheBuf = _
      unfold pfsCacheFree
      rw [if_neg (by omega)]
      dsimp only
      split
      · rfl
      · split <;> rfl
    have hself := (congrFun hbuffers clink).trans (Function.update_self ..)
    have huses := uses_update (k := k) h.content hkeeps.inv.content hkeeps.size
      (fun j hj => by rw [hbuffers, Function.update_of_ne hj]; exact ⟨rfl, rfl⟩)
      hin (by rw [hself]; exact hmount) (.inl (by rw [hself]; rfl)) hk
    rw [hself] at huses
    rw [huses, effect, uses_key h.content hin hmount]
    rfl
  | modify clink data =>
    refine hsame (fun j => ⟨key_modify c (fun b => { b with data := data, dirty := true }) rfl j, ?_⟩) hk
    have hself : (exec M (.modify clink data) c).pfsCacheBuf clink =
        { c.pfsCacheBuf clink with data := data, dirty := true } := Function.update_self ..
    by_cases hj : j = clink
    · rw [hj, hself]
    · exact congrArg pfs_cache_t.nused (Function.update_of_ne hj _ _)
  | flush m =>
    have hsteady := (flush_spec h.content m).1.steady
    exact hsame (fun j => ⟨hsteady.key j, hsteady.nused j⟩) hk
  | copy m sub₁ number₁ sub₂ number₂ length =>
    have hcopies := fsskCopyBlock_copies M m sub₁ number₁ sub₂ number₂ length c
    refine hsame (fun j => ?_) hk
    show ((fsskCopyBlock M m sub₁ number₁ sub₂ number₂ length c).pfsCacheBuf j).key = _ ∧
      ((fsskCopyBlock M m sub₁ number₁ sub₂ number₂ length c).pfsCacheBuf j).nused = _
    rw [hcopies.eq]
    exact ⟨rfl, rfl⟩
  | markClean m subpart first last =>
    rw [exec, markClean_eq hproper]
    rfl

end HddChecker.Pfs.Cache

/-! ### Searches -/

namespace HddChecker.Pfs.Path

open Journal (PFS_CACHE_FLAG_SEGD)
open Cache (Mounts State Inv Allowed Proper InCache exec effect exec_uses uses)

/-- The block of an inode. -/
def blockOf (M : Mounts) (m : Nat) (p : Place) : Cache.Key := (m, p.1, p.2 * 2 ^ M.inode_scale m)

/-- A search counts the uses of the inodes as the cache does. -/
def Counts (M : Mounts) (m : Nat) (c : State) (s : Uses) : Prop := ∀ p, s.nused p = uses c (blockOf M m p)

variable {M : Mounts} {m : Nat} {v : Mount}

theorem blockOf_injective (M : Mounts) (m : Nat) : Function.Injective (blockOf M m) := by
  intro p q heq
  obtain ⟨-, hrest⟩ := Prod.mk.inj heq
  obtain ⟨hsub, hblock⟩ := Prod.mk.inj hrest
  exact Prod.ext hsub (Nat.eq_of_mul_eq_mul_right (Nat.two_pow_pos _) hblock)

/-- A step of a search and the call it makes of the cache, or a call that is none of its business: one that keeps the uses of all inodes of the mount. -/
inductive Step (M : Mounts) (m : Nat) (v : Mount) : State × Uses → State × Uses → Prop
  | get {c : State} {s : Uses} {p : Place} {call : Cache.Call} :
      call = .get m p.1 (p.2 * 2 ^ M.inode_scale m) PFS_CACHE_FLAG_SEGD → Allowed M c call → Proper M c call →
      (v.fetch s.calls p).toOption.isSome =
        (c.pfsCacheGetData M m p.1 (p.2 * 2 ^ M.inode_scale m) PFS_CACHE_FLAG_SEGD).1.isSome →
      Step M m v (c, s) (exec M call c, (pfsInodeGetData v p s).2)
  | usedAdd {c : State} {s : Uses} {p : Place} {clink : Nat} : (c.pfsCacheBuf clink).key = blockOf M m p →
      Allowed M c (.usedAdd clink) → Proper M c (.usedAdd clink) →
      Step M m v (c, s) (exec M (.usedAdd clink) c, s.pfsCacheUsedAdd p)
  | free {c : State} {s : Uses} {p : Place} {clink : Nat} : (c.pfsCacheBuf clink).key = blockOf M m p →
      Allowed M c (.free clink) → Step M m v (c, s) (exec M (.free clink) c, s.pfsCacheFree p)
  | other {c : State} {s : Uses} {call : Cache.Call} : Allowed M c call → Proper M c call →
      (∀ p, effect M c call (uses c) (blockOf M m p) = uses c (blockOf M m p)) → Step M m v (c, s) (exec M call c, s)

theorem Counts.update {c c' : State} {s s' : Uses} {p : Place} {n : Nat} (h : Counts M m c s)
    (huses : ∀ q, uses c' (blockOf M m q) = Function.update (uses c) (blockOf M m p) n (blockOf M m q))
    (hs : s'.nused = Function.update s.nused p n) : Counts M m c' s' := by
  intro q
  rw [huses, hs]
  by_cases hq : q = p
  · subst hq
    rw [Function.update_self, Function.update_self]
  · rw [Function.update_of_ne hq, Function.update_of_ne fun heq => hq (blockOf_injective M m heq)]
    exact h q

theorem Step.counts {x y : State × Uses} (h : Step M m v x y) (hm : m ≠ 0) (hinv : Inv M x.1)
    (hcounts : Counts M m x.1 x.2) : Inv M y.1 ∧ Counts M m y.1 y.2 := by
  cases h with
  | @get c s p call hcall hallowed hproper hfetch =>
    subst hcall
    replace hinv : Inv M c := hinv
    replace hcounts : Counts M m c s := hcounts
    have huses := fun q => exec_uses hinv hallowed hproper (k := blockOf M m q) hm
    obtain ⟨_, hkeeps⟩ := Cache.exec_spec hinv hallowed hproper
    refine ⟨hkeeps.inv, ?_⟩
    rw [effect, ← hfetch] at huses
    unfold pfsInodeGetData
    cases hanswer : v.fetch s.calls p with
    | ok node =>
      rw [hanswer] at huses
      refine hcounts.update (p := p) (n := s.nused p + 1) (fun q => ?_) rfl
      rw [huses q, hcounts p]
      rfl
    | error e =>
      rw [hanswer] at huses
      exact fun q => (hcounts q).trans (huses q).symm
  | @usedAdd c s p clink hkey hallowed hproper =>
    replace hinv : Inv M c := hinv
    replace hcounts : Counts M m c s := hcounts
    have huses := fun q => exec_uses hinv hallowed hproper (k := blockOf M m q) hm
    obtain ⟨_, hkeeps⟩ := Cache.exec_spec hinv hallowed hproper
    refine ⟨hkeeps.inv, hcounts.update (p := p) (n := s.nused p + 1) (fun q => ?_) rfl⟩
    rw [huses q, effect, hkey, hcounts p]
  | @free c s p clink hkey hallowed =>
    replace hinv : Inv M c := hinv
    replace hcounts : Counts M m c s := hcounts
    have huses := fun q => exec_uses hinv hallowed trivial (k := blockOf M m q) hm
    obtain ⟨_, hkeeps⟩ := Cache.exec_spec hinv hallowed trivial
    have hused : s.nused p ≠ 0 := by
      have hmount := hinv.content.referenced clink hallowed.1 hallowed.2.ne'
      have hpos : 0 < (c.pfsCacheBuf clink).nused := hallowed.2
      rw [hcounts p, ← hkey, Cache.uses_key hinv.content hallowed.1 hmount]
      omega
    refine ⟨hkeeps.inv, hcounts.update (p := p) (n := s.nused p - 1) (fun q => ?_) ?_⟩
    · rw [huses q, effect, hkey, hcounts p]
    · unfold Uses.pfsCacheFree
      rw [if_neg hused]
  | other hallowed hproper hkeeps =>
    obtain ⟨_, hinv'⟩ := Cache.exec_spec hinv hallowed hproper
    exact ⟨hinv'.inv, fun q => (hcounts q).trans ((exec_uses hinv hallowed hproper hm).trans (hkeeps q)).symm⟩

/-- The uses that a search counts are those of the buffers of the cache, from the first step to the last and whatever else the cache is used for. -/
theorem search_counts {x y : State × Uses} (h : Relation.ReflTransGen (Step M m v) x y) (hm : m ≠ 0) (hinv : Inv M x.1)
    (hcounts : Counts M m x.1 x.2) : Inv M y.1 ∧ Counts M m y.1 y.2 := by
  induction h with
  | refl => exact ⟨hinv, hcounts⟩
  | tail _ hstep ih => exact hstep.counts hm ih.1 ih.2

end HddChecker.Pfs.Path
