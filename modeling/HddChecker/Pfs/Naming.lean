import HddChecker.Pfs.Contents

/-!
# Adding and removing names

Whatever cannot be read, `pfsDirAddEntry` and `pfsDirRemoveEntry` either change nothing or do to the map of a directory what they are for, and so does every sequence of their calls.
-/

namespace HddChecker.Pfs

open Bytes Records

variable {b b' : Nat → UInt8} {d n p q : Nat} {l l₁ l₂ : List Nat} {dir : Directory} {reads : Nat → Bool}
  {m : Contents} {path : List UInt8} {bi : pfs_blockinfo_t} {mode : Nat} {g : Growth}

/-- A name and an inode that an entry can take. -/
structure Fitting (path : List UInt8) (bi : pfs_blockinfo_t) : Prop where
  named : path ≠ []
  short : path.length < 256
  string : 0 ∉ path
  inode : bi.number ≠ 0
  number : bi.number < 2 ^ 32
  subpart : bi.subpart < 256

/-- What the entry of a file holds. -/
def refOf (bi : pfs_blockinfo_t) (mode : Nat) : Ref := ⟨bi.number, bi.subpart, mode &&& FIO_S_IFMT⟩

/-! ### Adding a name -/

/-- The new entry, as it is read. -/
structure Filled (b' : Nat → UInt8) (d len : Nat) (path : List UInt8) (r : Ref) : Prop where
  entry : entryAt b' d = (path, r)
  len : entryLen b' d = some len
  used : inodeAt b' d = 0 ↔ pLenAt b' d = 0

theorem Filled.pos {len : Nat} {r : Ref} (h : Filled b' d len path r) : 0 < len := by
  have hneeded := (entryLen_eq_some.mp h.len).2.2.1
  have hhead := dentryLen_pos b' d
  omega

theorem filled (h : Fitting path bi) (hlen : n < 4096) (hmod : n % 4 = 0) (hroom : new_dentryLen path.length ≤ n)
    (hwithin : d + n ≤ sectorEnd d) : Filled (pfsFillDentry b d path bi n mode) d n path (refOf bi mode) := by
  have hentry : entryAt (pfsFillDentry b d path bi n mode) d = (path, refOf bi mode) :=
    entryAt_fill h.short hlen h.number h.subpart
  have hpLen : pLenAt (pfsFillDentry b d path bi n mode) d = path.length := pLenAt_fill h.short
  have hinode : inodeAt (pfsFillDentry b d path bi n mode) d = bi.number := congrArg (fun e => e.2.inode) hentry
  refine ⟨hentry, entryLen_eq_some.mpr ⟨sizeAt_fill h.short hlen, hmod, ?_, hwithin⟩, ?_⟩
  · rw [hpLen, dentryLen_eq h.short]
    exact hroom
  · rw [hpLen, hinode]
    exact iff_of_false h.inode fun hzero => h.named (List.eq_nil_of_length_eq_zero hzero)

private theorem stores_free (hentries : Entries dir (l₁ ++ d :: l₂)) (hnamed : Named dir.bytes (l₁ ++ d :: l₂) m)
    (h : Fitting path bi) (hnew : m path = none) (hfree : pLenAt dir.bytes d = 0)
    (hout : SameOutside dir.bytes b' d (d + sizeAt dir.bytes d))
    (hfilled : Filled b' d (sizeAt dir.bytes d) path (refOf bi mode)) :
    Stores ⟨dir.size, b'⟩ (Function.update m path (some (refOf bi mode))) := by
  obtain ⟨hbefore, hbehind⟩ := hentries.cut
  have hframe := frame hbefore hbehind hout
  have hentries' : Entries ⟨dir.size, b'⟩ (l₁ ++ ([d] ++ l₂)) := by
    refine hentries.replace (show _ = l₁ ++ ([d] ++ l₂) from rfl) hbefore hbehind hout (.cons hfilled.len hfilled.pos .nil) ?_
    intro x hx
    rw [List.mem_singleton.mp hx]
    exact hfilled.used
  refine ⟨_, hentries', hnamed.insert hnew h.named (p := d) (by simp) hfilled.entry ?_ ?_⟩
  · intro x hx hne
    have hmem : x ∈ l₁ ++ l₂ := by simpa [hne] using hx
    exact ⟨hx, (hframe x hmem).2⟩
  · intro x hx hpLen
    refine ⟨hx, ?_⟩
    rintro rfl
    exact hpLen hfree

private theorem stores_shared (hentries : Entries dir (l₁ ++ d :: l₂)) (hnamed : Named dir.bytes (l₁ ++ d :: l₂) m)
    (h : Fitting path bi) (hnew : m path = none) (hle : n ≤ sizeAt dir.bytes d) (hpos : 0 < n)
    (hout : SameOutside dir.bytes b' d (d + sizeAt dir.bytes d)) (hkept : entryAt b' d = entryAt dir.bytes d)
    (hlen : entryLen b' d = some n) (hfilled : Filled b' (d + n) (sizeAt dir.bytes d - n) path (refOf bi mode)) :
    Stores ⟨dir.size, b'⟩ (Function.update m path (some (refOf bi mode))) := by
  obtain ⟨hbefore, hbehind⟩ := hentries.cut
  have hframe := frame hbefore hbehind hout
  have hroom := hfilled.pos
  have hentries' : Entries ⟨dir.size, b'⟩ (l₁ ++ ([d, d + n] ++ l₂)) := by
    refine hentries.replace (show _ = l₁ ++ ([d] ++ l₂) from rfl) hbefore hbehind hout (.cons hlen hpos (.cons hfilled.len hroom ?_)) ?_
    · rw [show d + n + (sizeAt dir.bytes d - n) = d + sizeAt dir.bytes d by omega]
      exact .nil
    · intro x hx
      rcases List.mem_cons.mp hx with rfl | hx
      · rw [inodeAt_of_entryAt hkept, pLenAt_of_entryAt hkept]
        exact hentries.used _ (by simp)
      · rw [List.mem_singleton.mp hx]
        exact hfilled.used
  refine ⟨_, hentries', hnamed.insert hnew h.named (p := d + n) (by simp) hfilled.entry ?_ ?_⟩
  · intro x hx hne
    by_cases hxd : x = d
    · rw [hxd]
      exact ⟨by simp, hkept⟩
    · have hmem : x ∈ l₁ ++ l₂ := by simpa [hne, hxd] using hx
      refine ⟨?_, (hframe x hmem).2⟩
      simpa [hxd] using hmem
  · intro x hx _
    by_cases hxd : x = d
    · rw [hxd]
      exact ⟨by simp, by omega⟩
    · have hmem : x ∈ l₁ ++ l₂ := by simpa [hxd] using hx
      have hplace := (hframe x hmem).1
      refine ⟨?_, by omega⟩
      rcases List.mem_append.mp hmem with hx | hx
      · simp [hx]
      · simp [hx]

private theorem stores_grown (hentries : Entries dir l) (hnamed : Named dir.bytes l m) (h : Fitting path bi)
    (hnew : m path = none) (hbefore : ∀ i < dir.size, b' i = dir.bytes i)
    (hfilled : Filled b' dir.size DENTRY_SIZE path (refOf bi mode)) :
    Stores ⟨dir.size + DENTRY_SIZE, b'⟩ (Function.update m path (some (refOf bi mode))) := by
  obtain ⟨hchain, hframe⟩ := chain_same hentries.chain fun i _ hi => hbefore i hi
  have hwhole := hentries.whole
  have hentries' : Entries ⟨dir.size + DENTRY_SIZE, b'⟩ (l ++ [dir.size]) := by
    refine ⟨show (dir.size + 512) % 512 = 0 by omega, hchain.append (.cons hfilled.len hfilled.pos .nil), ?_⟩
    intro x hx
    rcases List.mem_append.mp hx with hx | hx
    · have hsame := (hframe x hx).2.2
      rw [inodeAt_of_entryAt hsame, pLenAt_of_entryAt hsame]
      exact hentries.used x hx
    · rw [List.mem_singleton.mp hx]
      exact hfilled.used
  refine ⟨_, hentries', hnamed.insert hnew h.named (p := dir.size) (by simp) hfilled.entry ?_ ?_⟩
  · intro x hx hne
    have hmem : x ∈ l := by simpa [hne] using hx
    exact ⟨hmem, (hframe x hmem).2.2⟩
  · intro x hx _
    exact ⟨List.mem_append_left _ hx, (hframe x hx).2.1.ne⟩

private theorem meets_room : (Wanted.room path).meets b d = true ↔
    ((inodeAt b d ≠ 0 ∨ sizeAt b d < new_dentryLen path.length) →
      new_dentryLen path.length ≤ sizeAt b d - dentryLen (pLenAt b d)) := by
  change (if _ then _ else _) = true ↔ _
  split
  · rename_i h
    rw [decide_eq_true_iff]
    exact ⟨fun hle _ => hle, fun hle => hle h⟩
  · rename_i h
    exact iff_of_true rfl fun hor => absurd hor h

private theorem new_dentryLen_pos (len : Nat) : len + 8 ≤ new_dentryLen len := by
  unfold new_dentryLen
  omega

/-- An entry that meets the criterion has room for the name. -/
private theorem added_stores (hentries : Entries dir (l₁ ++ d :: l₂)) (hnamed : Named dir.bytes (l₁ ++ d :: l₂) m)
    (h : Fitting path bi) (hnew : m path = none) (hmeets : (Wanted.room path).meets dir.bytes d = true) (len : Nat)
    (hlen : len = if pLenAt dir.bytes d ≠ 0 then sizeAt dir.bytes d - dentryLen (pLenAt dir.bytes d)
      else sizeAt dir.bytes d) (dentry : Nat) (b₁ : Nat → UInt8)
    (hb₁ : b₁ = setALen dir.bytes d (modeAt dir.bytes d ||| (sizeAt dir.bytes d - len)))
    (hdentry : dentry = d + sizeAt b₁ d) :
    Stores ⟨dir.size, pfsFillDentry b₁ dentry path bi len mode⟩ (Function.update m path (some (refOf bi mode))) := by
  have hroom := meets_room.mp hmeets
  have hpos := new_dentryLen_pos path.length
  have hlt := sizeAt_lt (b := dir.bytes) (d := d)
  have hused := hentries.used d (by simp)
  obtain ⟨-, hmod, hneeded, hwithin⟩ := entryLen_eq_some.mp (hentries.len (d := d) (by simp))
  have hsize : sizeAt b₁ d = sizeAt dir.bytes d - len := by rw [hb₁, sizeAt_setALen (by omega)]
  have hkept : entryAt b₁ d = entryAt dir.bytes d := by rw [hb₁, entryAt_setALen (by omega)]
  have hout₁ : ∀ i, i < d + 6 ∨ d + 8 ≤ i → b₁ i = dir.bytes i := by
    intro i hi
    rw [hb₁, setALen_outside hi]
  by_cases hfree : pLenAt dir.bytes d = 0
  · rw [if_neg (not_not.mpr hfree)] at hlen
    have hfits : new_dentryLen path.length ≤ sizeAt dir.bytes d := by
      by_contra hless
      have hle := hroom (.inr (Nat.not_le.mp hless))
      omega
    obtain rfl : dentry = d := by omega
    rw [hlen]
    refine stores_free hentries hnamed h hnew hfree ?_ (filled h hlt hmod hfits hwithin)
    intro i hi
    rw [pfsFillDentry_outside h.short (by omega)]
    exact hout₁ i (by omega)
  · rw [if_pos hfree] at hlen
    have hfits := hroom (.inl fun hzero => hfree (hused.mp hzero))
    have hhead := dentryLen_pos dir.bytes d
    have hmodn : dentryLen (pLenAt dir.bytes d) % 4 = 0 := by
      rw [dentryLen_eq (pLenAt_lt _ _), new_dentryLen]
      omega
    obtain rfl : dentry = d + dentryLen (pLenAt dir.bytes d) := by omega
    have hsame : Agree b₁ (pfsFillDentry b₁ (d + dentryLen (pLenAt dir.bytes d)) path bi len mode) d
        (dentryLen (pLenAt dir.bytes d)) := fun i _ hi => pfsFillDentry_outside h.short (.inl hi)
    have hentry : entryAt (pfsFillDentry b₁ (d + dentryLen (pLenAt dir.bytes d)) path bi len mode) d =
        entryAt dir.bytes d := by
      refine (hsame.mono ?_).entryAt_eq.trans hkept
      rw [pLenAt_of_entryAt hkept]
      omega
    rw [hlen] at hentry hsame ⊢
    refine stores_shared hentries hnamed h hnew hneeded (by omega) ?_ hentry ?_ ?_
    · intro i hi
      rw [pfsFillDentry_outside h.short (by omega)]
      exact hout₁ i (by omega)
    · refine entryLen_eq_some.mpr ⟨?_, hmodn, ?_, by omega⟩
      · rw [(hsame.mono (by omega)).sizeAt_eq, hsize]
        omega
      · rw [pLenAt_of_entryAt hentry]
    · refine filled h (by omega) (by omega) hfits ?_
      unfold sectorEnd at hwithin ⊢
      omega

private theorem pfsDirAddEntry_stores (h : Stores dir m) (hfit : Fitting path bi) (hnew : m path = none)
    {result : Except Int Nat} {dir' : Directory} (hrun : pfsDirAddEntry reads g dir path bi mode = (result, dir')) :
    (∀ e, result = .error e → dir' = dir) ∧
      ∀ dentry, result = .ok dentry → Stores dir' (Function.update m path (some (refOf bi mode))) := by
  obtain ⟨l, hentries, hnamed⟩ := h
  unfold pfsDirAddEntry at hrun
  split at hrun
  · rename_i d hget
    obtain ⟨hd, hmeets⟩ := pfsGetDentry_some hentries hget
    obtain ⟨l₁, l₂, rfl⟩ := List.append_of_mem hd
    obtain ⟨rfl, rfl⟩ := Prod.mk.inj hrun
    refine ⟨fun e heq => (by cases heq), fun dentry _ => ?_⟩
    exact added_stores hentries hnamed hfit hnew hmeets _ rfl _ _ rfl rfl
  split at hrun
  · obtain ⟨rfl, rfl⟩ := Prod.mk.inj hrun
    exact ⟨fun _ _ => rfl, fun dentry heq => by cases heq⟩
  split at hrun
  · obtain ⟨rfl, rfl⟩ := Prod.mk.inj hrun
    exact ⟨fun _ _ => rfl, fun dentry heq => by cases heq⟩
  · obtain ⟨rfl, rfl⟩ := Prod.mk.inj hrun
    refine ⟨fun e heq => (by cases heq), fun dentry _ => ?_⟩
    have hwhole := hentries.whole
    have hshort := hfit.short
    refine stores_grown hentries hnamed hfit hnew (fun i hi => pfsFillDentry_outside hshort (.inl hi)) ?_
    refine filled hfit (by decide) (by decide) ?_ ?_
    · change new_dentryLen path.length ≤ 512
      unfold new_dentryLen
      omega
    · change dir.size + 512 ≤ sectorEnd dir.size
      unfold sectorEnd
      omega

/-! ### Removing a name -/

section Clear

theorem clear_outside {i : Nat} (hi : i < d ∨ d + 8 ≤ i) : setPLen (setInode b d 0) d 0 i = b i := by
  have hlen : ([UInt8.ofNat 0] : List UInt8).length = 1 := rfl
  exact (put_outside (by omega)).trans (put_outside (by rw [length_le32]; omega))

private theorem sizeAt_clear : sizeAt (setPLen (setInode b d 0) d 0) d = sizeAt b d := by
  have hlen : ([UInt8.ofNat 0] : List UInt8).length = 1 := rfl
  have hbyte : ∀ i, d + 6 ≤ i → setPLen (setInode b d 0) d 0 i = b i := fun i hi =>
    (put_behind (by omega)).trans (put_behind (by rw [length_le32]; omega))
  have haLen : aLenAt (setPLen (setInode b d 0) d 0) d = aLenAt b d :=
    u16_congr (hbyte _ (by omega)) (hbyte _ (by omega))
  rw [sizeAt, haLen, sizeAt]

private theorem pLenAt_clear : pLenAt (setPLen b d 0) d = 0 := by
  have hbyte : setPLen b d 0 (d + 5) = UInt8.ofNat 0 := put_at (k := 0) (l := [UInt8.ofNat 0]) (by decide)
  rw [pLenAt, hbyte]
  rfl

private theorem inodeAt_clear : inodeAt (setPLen (setInode b d 0) d 0) d = 0 := by
  have hsame : inodeAt (setPLen (setInode b d 0) d 0) d = inodeAt (setInode b d 0) d :=
    u32_congr fun k hk => put_before (by omega)
  rw [hsame, inodeAt, u32_le32 (n := 0) take_put, Nat.zero_mod]

end Clear

private theorem stores_cleared (hentries : Entries dir (l₁ ++ d :: l₂)) (hnamed : Named dir.bytes (l₁ ++ d :: l₂) m)
    (hname : pathAt dir.bytes d = path) :
    Stores ⟨dir.size, setPLen (setInode dir.bytes d 0) d 0⟩ (Function.update m path none) := by
  obtain ⟨-, hmod, hneeded, hwithin⟩ := entryLen_eq_some.mp (hentries.len (d := d) (by simp))
  have hhead := dentryLen_pos dir.bytes d
  have hout : SameOutside dir.bytes (setPLen (setInode dir.bytes d 0) d 0) d (d + sizeAt dir.bytes d) :=
    fun i hi => clear_outside (by omega)
  have hpLen := pLenAt_clear (b := setInode dir.bytes d 0) (d := d)
  have hlen : entryLen (setPLen (setInode dir.bytes d 0) d 0) d = some (sizeAt dir.bytes d) := by
    refine entryLen_eq_some.mpr ⟨sizeAt_clear, hmod, ?_, hwithin⟩
    rw [hpLen, show dentryLen 0 = 8 from rfl]
    omega
  obtain ⟨hbefore, hbehind⟩ := hentries.cut
  have hframe := frame hbefore hbehind hout
  have hentries' := hentries.replace (show _ = l₁ ++ ([d] ++ l₂) from rfl) hbefore hbehind hout (.cons hlen (by omega) .nil) (by
    intro x hx
    rw [List.mem_singleton.mp hx]
    exact iff_of_true inodeAt_clear hpLen)
  refine ⟨_, hentries', hnamed.erase (p := d) (by simp) hname ?_ ?_⟩
  · intro x hx hstill
    have hne : x ≠ d := by
      rintro rfl
      exact hstill hpLen
    have hmem : x ∈ l₁ ++ l₂ := by simpa [hne] using hx
    exact ⟨hx, hne, (hframe x hmem).2⟩
  · intro x hx hne _
    have hmem : x ∈ l₁ ++ l₂ := by simpa [hne] using hx
    exact ⟨hx, (hframe x hmem).2⟩

private theorem stores_shrunk (hentries : Entries dir (l₁ ++ [d])) (hnamed : Named dir.bytes (l₁ ++ [d]) m)
    (hname : pathAt dir.bytes d = path) (haligned : d % 512 = 0) :
    Stores ⟨d, setPLen (setInode dir.bytes d 0) d 0⟩ (Function.update m path none) := by
  obtain ⟨hbefore, -⟩ := hentries.cut
  have hsame : ∀ i, 0 ≤ i → i < d → setPLen (setInode dir.bytes d 0) d 0 i = dir.bytes i :=
    fun i _ hi => clear_outside (.inl hi)
  obtain ⟨hchain, hframe⟩ := chain_same hbefore hsame
  refine ⟨l₁, ⟨haligned, hchain, ?_⟩, hnamed.erase (p := d) (by simp) hname ?_ ?_⟩
  · intro x hx
    have hsame := (hframe x hx).2.2
    rw [inodeAt_of_entryAt hsame, pLenAt_of_entryAt hsame]
    exact hentries.used x (List.mem_append_left _ hx)
  · intro x hx _
    exact ⟨List.mem_append_left _ hx, (hframe x hx).2.1.ne, (hframe x hx).2.2⟩
  · intro x hx hne _
    have hmem : x ∈ l₁ := by simpa [hne] using hx
    exact ⟨hmem, (hframe x hmem).2.2⟩

/-- The entry before in its sector takes the place of an entry. -/
private theorem stores_merged (hentries : Entries dir (l₁ ++ q :: d :: l₂)) (hnamed : Named dir.bytes (l₁ ++ q :: d :: l₂) m)
    (hname : pathAt dir.bytes d = path) (hsector : q / 512 = d / 512) :
    Stores ⟨dir.size, setALen dir.bytes q (modeAt dir.bytes q ||| (sizeAt dir.bytes q + sizeAt dir.bytes d))⟩
      (Function.update m path none) := by
  obtain ⟨-, hmodq, hneededq, hwithinq⟩ := entryLen_eq_some.mp (hentries.len (d := q) (by simp))
  obtain ⟨-, hmodd, hneededd, hwithind⟩ := entryLen_eq_some.mp (hentries.len (d := d) (by simp))
  have hheadq := dentryLen_pos dir.bytes q
  have hheadd := dentryLen_pos dir.bytes d
  obtain ⟨hbefore, hrest⟩ := hentries.cut
  obtain ⟨rfl, n, hn, -, hbehind⟩ := hrest.uncons
  obtain ⟨rfl, -⟩ := entryLen_eq_some.mp hn
  generalize hd : q + sizeAt dir.bytes q = d at *
  unfold sectorEnd at hwithinq hwithind
  have hsmall : sizeAt dir.bytes q + sizeAt dir.bytes d < 4096 := by omega
  have hkept := entryAt_setALen (b := dir.bytes) (d := q) hsmall
  have hsize := sizeAt_setALen (b := dir.bytes) (d := q) hsmall
  have hout : SameOutside dir.bytes
      (setALen dir.bytes q (modeAt dir.bytes q ||| (sizeAt dir.bytes q + sizeAt dir.bytes d))) q
      (d + sizeAt dir.bytes d) := fun i hi => setALen_outside (by omega)
  have hlen : entryLen (setALen dir.bytes q (modeAt dir.bytes q ||| (sizeAt dir.bytes q + sizeAt dir.bytes d))) q =
      some (sizeAt dir.bytes q + sizeAt dir.bytes d) := by
    refine entryLen_eq_some.mpr ⟨hsize, by omega, ?_, ?_⟩
    · rw [pLenAt_of_entryAt hkept]
      omega
    · unfold sectorEnd
      omega
  have hframe := frame hbefore hbehind hout
  have hentries' : Entries ⟨dir.size, _⟩ (l₁ ++ ([q] ++ l₂)) :=
    hentries.replace (show _ = l₁ ++ ([q, d] ++ l₂) from rfl) hbefore hbehind hout
    (.cons hlen (by omega) (by rw [show q + (sizeAt dir.bytes q + sizeAt dir.bytes d) = d + sizeAt dir.bytes d by omega]; exact .nil)) (by
    intro x hx
    rw [List.mem_singleton.mp hx, inodeAt_of_entryAt hkept, pLenAt_of_entryAt hkept]
    exact hentries.used q (by simp))
  refine ⟨_, hentries', hnamed.erase (p := d) (by simp) hname ?_ ?_⟩
  · intro x hx _
    by_cases hxq : x = q
    · rw [hxq]
      exact ⟨by simp, by omega, hkept⟩
    · have hmem : x ∈ l₁ ++ l₂ := by simpa [hxq] using hx
      have hplace := (hframe x hmem).1
      refine ⟨?_, by omega, (hframe x hmem).2⟩
      rcases List.mem_append.mp hmem with hx | hx
      · simp [hx]
      · simp [hx]
  · intro x hx hne _
    by_cases hxq : x = q
    · rw [hxq]
      exact ⟨by simp, hkept⟩
    · have hmem : x ∈ l₁ ++ l₂ := by simpa [hxq, hne] using hx
      refine ⟨?_, (hframe x hmem).2⟩
      simpa [hxq] using hmem

private theorem pfsDirRemoveEntry_stores (h : Stores dir m) {removed : Bool} {dir' : Directory}
    (hrun : pfsDirRemoveEntry reads dir path = (removed, dir')) :
    (removed = false → dir' = dir) ∧ (removed = true → Stores dir' (Function.update m path none)) := by
  obtain ⟨l, hentries, hnamed⟩ := h
  unfold pfsDirRemoveEntry at hrun
  split at hrun
  · obtain ⟨rfl, rfl⟩ := Prod.mk.inj hrun
    exact ⟨fun _ => rfl, fun heq => by cases heq⟩
  · rename_i d hget
    obtain ⟨hd, hmeets⟩ := pfsGetDentry_some hentries hget
    have hname := (meets_path path).mp hmeets
    obtain ⟨l₁, l₂, rfl⟩ := List.append_of_mem hd
    rcases dlastOf_entries hentries with ⟨hlast, haligned⟩ | ⟨l₀, q, rfl, hsector, hlast⟩
    · rw [hlast] at hrun
      obtain ⟨rfl, rfl⟩ := Prod.mk.inj hrun
      refine ⟨fun heq => (by cases heq), fun _ => ?_⟩
      by_cases hend : dir.size ≤ d + sizeAt dir.bytes d
      · rw [if_pos hend]
        obtain ⟨-, hbehind⟩ := hentries.cut
        cases l₂ with
        | nil =>
          have hstop := hbehind.eq_of_nil
          rw [show dir.size - sizeAt dir.bytes d = d by omega]
          exact stores_shrunk hentries hnamed hname haligned
        | cons x l₂ =>
          obtain ⟨-, n, -, hpos, hrest⟩ := hbehind.uncons
          have hplace := (hbehind.bounds (p := x) (by simp)).1
          have hstop := hrest.le
          omega
      · rw [if_neg hend]
        exact stores_cleared hentries hnamed hname
    · rw [hlast] at hrun
      obtain ⟨rfl, rfl⟩ := Prod.mk.inj hrun
      rw [List.append_assoc] at hentries hnamed
      exact ⟨fun heq => (by cases heq), fun _ => stores_merged hentries hnamed hname hsector⟩

theorem pfsDirRemoveEntry_isSome (h : Stores dir m) (hpath : path ≠ []) (hreads : ∀ k, reads k = true) :
    (pfsDirRemoveEntry reads dir path).1 = (m path).isSome := by
  have hlookup := pfsGetDentry_stores h hpath hreads
  obtain ⟨l, hentries, -⟩ := h
  unfold pfsDirRemoveEntry
  cases hget : pfsGetDentry reads dir (.path path) with
  | none =>
    rw [hget] at hlookup
    rw [← hlookup]
    rfl
  | some d =>
    rw [hget] at hlookup
    rw [← hlookup]
    obtain ⟨hd, -⟩ := pfsGetDentry_some hentries hget
    obtain ⟨l₁, l₂, rfl⟩ := List.append_of_mem hd
    rcases dlastOf_entries hentries with ⟨hlast, -⟩ | ⟨l₀, q, rfl, -, hlast⟩
    · simp [hlast]
    · simp [hlast]

/-! ### Sequences of calls -/

/-- A call, with the blocks that can be read in it. -/
inductive Request where
  | add (reads : Nat → Bool) (g : Growth) (path : List UInt8) (bi : pfs_blockinfo_t) (mode : Nat)
  | remove (reads : Nat → Bool) (path : List UInt8)

/-- The directory behind a call, and whether it was successful. -/
def Request.perform (dir : Directory) : Request → Bool × Directory
  | .add reads g path bi mode =>
    match pfsDirAddEntry reads g dir path bi mode with
    | (.ok _, dir') => (true, dir')
    | (.error _, dir') => (false, dir')
  | .remove reads path => pfsDirRemoveEntry reads dir path

/-- What a successful call does to the map. -/
def Request.effect (m : Contents) : Request → Contents
  | .add _ _ path bi mode => Function.update m path (some (refOf bi mode))
  | .remove _ path => Function.update m path none

/-- A name is added only where it is not there. -/
def Request.Permitted (m : Contents) : Request → Prop
  | .add _ _ path bi _ => Fitting path bi ∧ m path = none
  | .remove _ _ => True

/-- The directory and the map behind a sequence of calls. -/
def performAll : List Request → Directory × Contents → Directory × Contents
  | [], x => x
  | r :: rs, (dir, m) =>
    match r.perform dir with
    | (true, dir') => performAll rs (dir', r.effect m)
    | (false, dir') => performAll rs (dir', m)

/-- Each call of a sequence is permitted when it comes. -/
def PermittedAll : List Request → Directory × Contents → Prop
  | [], _ => True
  | r :: rs, (dir, m) => r.Permitted m ∧
    match r.perform dir with
    | (true, dir') => PermittedAll rs (dir', r.effect m)
    | (false, dir') => PermittedAll rs (dir', m)

theorem Request.perform_stores {r : Request} (h : Stores dir m) (hr : r.Permitted m) {ok : Bool} {dir' : Directory}
    (hrun : r.perform dir = (ok, dir')) : (ok = false → dir' = dir) ∧ (ok = true → Stores dir' (r.effect m)) := by
  cases r with
  | add reads g path bi mode =>
    obtain ⟨hfit, hnew⟩ := hr
    cases hadd : pfsDirAddEntry reads g dir path bi mode with
    | mk result dir'' =>
      obtain ⟨herror, hok⟩ := pfsDirAddEntry_stores h hfit hnew hadd
      simp only [Request.perform, hadd] at hrun
      cases result with
      | ok dentry =>
        obtain ⟨rfl, rfl⟩ := Prod.mk.inj hrun
        exact ⟨fun heq => (by cases heq), fun _ => hok dentry rfl⟩
      | error e =>
        obtain ⟨rfl, rfl⟩ := Prod.mk.inj hrun
        exact ⟨fun _ => herror e rfl, fun heq => (by cases heq)⟩
  | remove reads path => exact pfsDirRemoveEntry_stores h hrun

/-- Any sequence of calls, whichever blocks can be read in each of them and whether the directory can grow, leaves a directory that holds the map the successful calls make. -/
theorem performAll_stores (rs : List Request) (h : Stores dir m) (hr : PermittedAll rs (dir, m)) :
    Stores (performAll rs (dir, m)).1 (performAll rs (dir, m)).2 := by
  induction rs generalizing dir m with
  | nil => exact h
  | cons r rs ih =>
    obtain ⟨hpermitted, hrest⟩ := hr
    unfold performAll
    cases hrun : r.perform dir with
    | mk ok dir' =>
      obtain ⟨hfailed, hdone⟩ := Request.perform_stores h hpermitted hrun
      rw [hrun] at hrest
      cases ok with
      | true => exact ih (hdone rfl) hrest
      | false =>
        obtain rfl : dir' = dir := hfailed rfl
        exact ih h hrest

/-! ### A new directory -/

/-- The names of a new directory. -/
def dots (self parent : pfs_blockinfo_t) : Contents :=
  Function.update (Function.update (fun _ => none) [46] (some (refOf self FIO_S_IFDIR))) [46, 46]
    (some (refOf parent FIO_S_IFDIR))

theorem fillDots_outside (h : path.length < 256) {i : Nat} (hi : i < d ∨ d + 9 + path.length ≤ i) :
    fillDots b d bi path n i = b i := by
  have hlen : ([0] : List UInt8).length = 1 := rfl
  rw [fillDots, put_outside (by omega)]
  exact pfsFillDentry_outside h (by omega)

theorem Filled.same {len : Nat} {r : Ref} (h : Filled b d len path r)
    (hsame : Agree b b' d (8 + pLenAt b d)) : Filled b' d len path r := by
  have hhead := hsame.mono (Nat.le_add_right 8 _)
  have hentry := hsame.entryAt_eq
  refine ⟨hentry.trans h.entry, (entryLen_congr hhead.sizeAt_eq hhead.pLenAt_eq).trans h.len, ?_⟩
  rw [inodeAt_of_entryAt hentry, pLenAt_of_entryAt hentry]
  exact h.used

theorem fillDots_filled (h : Fitting path bi) (hlen : n < 4096) (hmod : n % 4 = 0)
    (hroom : new_dentryLen path.length ≤ n) (hwithin : d + n ≤ sectorEnd d) :
    Filled (fillDots b d bi path n) d n path (refOf bi FIO_S_IFDIR) := by
  refine (filled h hlen hmod hroom hwithin).same fun i _ hi => put_before ?_
  rw [pLenAt_fill h.short] at hi
  omega

theorem fresh_filled {self parent : pfs_blockinfo_t} (hself : Fitting [46] self) (hparent : Fitting [46, 46] parent) :
    Filled (pfsFillSelfAndParentDentries self parent) 0 12 [46] (refOf self FIO_S_IFDIR) ∧
      Filled (pfsFillSelfAndParentDentries self parent) 12 500 [46, 46] (refOf parent FIO_S_IFDIR) := by
  refine ⟨?_, fillDots_filled hparent (by decide) (by decide) (by decide) (by decide)⟩
  have hbefore := fillDots_filled (b := fun _ => 0) (d := 0) hself (n := 12) (by decide) (by decide) (by decide)
    (by decide)
  refine hbefore.same fun i _ hi => fillDots_outside hparent.short (.inl ?_)
  have hpLen : pLenAt (fillDots (fun _ => 0) 0 self [46] 12) 0 = 1 := by
    rw [← length_pathAt, show pathAt _ 0 = [46] from congrArg Prod.fst hbefore.entry]
    rfl
  omega

theorem fresh_entries {self parent : pfs_blockinfo_t} (hself : Fitting [46] self) (hparent : Fitting [46, 46] parent) :
    Entries (.fresh self parent) [0, 12] := by
  obtain ⟨hfirst, hsecond⟩ := fresh_filled hself hparent
  refine ⟨(rfl : 512 % 512 = 0), .cons hfirst.len (by decide) (.cons hsecond.len (by decide) .nil), ?_⟩
  intro x hx
  rcases List.mem_cons.mp hx with rfl | hx
  · exact hfirst.used
  · rw [List.mem_singleton.mp hx]
    exact hsecond.used

theorem fresh_stores {self parent : pfs_blockinfo_t} (hself : Fitting [46] self) (hparent : Fitting [46, 46] parent) :
    Stores (.fresh self parent) (dots self parent) := by
  obtain ⟨hfirst, hsecond⟩ := fresh_filled hself hparent
  have hnone : Named (pfsFillSelfAndParentDentries self parent) [] fun _ => none :=
    ⟨fun _ hd => (by cases hd), fun _ _ hfound => (by cases hfound), fun _ hd => (by cases hd)⟩
  have hself' := hnone.insert rfl hself.named (show 0 ∈ [0] by simp) hfirst.entry
    (fun x hx hne => absurd (List.mem_singleton.mp hx) hne) fun x hx => (by cases hx)
  refine ⟨[0, 12], fresh_entries hself hparent, ?_⟩
  refine hself'.insert (Function.update_of_ne (by decide) _ _) hparent.named (p := 12) (by simp) hsecond.entry ?_ ?_
  · intro x hx hne
    exact ⟨by simpa [hne] using hx, rfl⟩
  · intro x hx _
    rw [List.mem_singleton.mp hx]
    exact ⟨by simp, by decide⟩

/-- The names of a map are strings. -/
def Strings (m : Contents) : Prop := ∀ path r, m path = some r → 0 ∉ path

private theorem performAll_strings (rs : List Request) (h : Strings m) (hr : PermittedAll rs (dir, m)) :
    Strings (performAll rs (dir, m)).2 := by
  induction rs generalizing dir m with
  | nil => exact h
  | cons r rs ih =>
    obtain ⟨hpermitted, hrest⟩ := hr
    have heffect : Strings (r.effect m) := by
      intro path' r' hfound
      cases r with
      | add reads g path bi mode =>
        by_cases heq : path' = path
        · rw [heq]
          exact hpermitted.1.string
        · exact h path' r' (by rwa [Request.effect, Function.update_of_ne heq] at hfound)
      | remove reads path =>
        by_cases heq : path' = path
        · rw [heq, Request.effect, Function.update_self] at hfound
          cases hfound
        · exact h path' r' (by rwa [Request.effect, Function.update_of_ne heq] at hfound)
    unfold performAll
    cases hrun : r.perform dir with
    | mk ok dir' =>
      rw [hrun] at hrest
      cases ok with
      | true => exact ih heffect hrest
      | false => exact ih h hrest

private theorem dots_strings (self parent : pfs_blockinfo_t) : Strings (dots self parent) := by
  intro path r hfound
  by_cases hparent : path = [46, 46]
  · rw [hparent]
    decide
  by_cases hself : path = [46]
  · rw [hself]
    decide
  · rw [dots, Function.update_of_ne hparent, Function.update_of_ne hself] at hfound
    cases hfound

private theorem dots_of_not_file (hpLen : pLenAt b d ≠ 0) (hstring : 0 ∉ pathAt b d)
    (h : Wanted.file.meets b d = false) : pathAt b d = [46] ∨ pathAt b d = [46, 46] := by
  have hmem : ∀ k < pLenAt b d, b (d + 8 + k) ≠ 0 := by
    intro k hk hzero
    exact hstring (List.mem_map.mpr ⟨k, List.mem_range.mpr hk, hzero⟩)
  have hcases : take b (d + 8) 2 = [46, 0] ∨ take b (d + 8) 3 = [46, 46, 0] := by
    rw [Wanted.meets, decide_eq_false_iff_not] at h
    by_contra hneither
    rw [not_or] at hneither
    exact h ⟨hpLen, hneither⟩
  rcases hcases with hself | hparent
  · have hone : pLenAt b d = 1 := by
      by_contra hne
      exact hmem 1 (by omega) (List.cons.inj (List.cons.inj hself).2).1
    rw [pathAt, hone]
    exact .inl (congrArg (List.take 1) hself)
  · have hfew : pLenAt b d = 1 ∨ pLenAt b d = 2 := by
      by_contra hne
      exact hmem 2 (by omega) (List.cons.inj (List.cons.inj (List.cons.inj hparent).2).2).1
    rw [pathAt]
    rcases hfew with hone | htwo
    · rw [hone]
      exact .inl (congrArg (List.take 1) hparent)
    · rw [htwo]
      exact .inr (congrArg (List.take 2) hparent)

private theorem pfsCheckDirForFiles_stores (h : Stores dir m) (hstrings : Strings m) (hreads : ∀ k, reads k = true)
    (hempty : pfsCheckDirForFiles reads dir ≠ 0) : ∀ path r, m path = some r → path = [46] ∨ path = [46, 46] := by
  obtain ⟨l, hentries, hnamed⟩ := h
  have hnone : pfsGetDentry reads dir .file = none := by
    unfold pfsCheckDirForFiles at hempty
    by_contra hsome
    rw [if_pos (Option.isSome_iff_ne_none.mpr hsome)] at hempty
    exact hempty rfl
  intro path r hfound
  obtain ⟨d, hd, hpLen, rfl⟩ := hnamed.found path r hfound
  refine dots_of_not_file hpLen (hstrings _ r hfound) ?_
  rcases pfsGetDentry_entries hentries reads .file with heq | ⟨-, k, hk⟩
  · rw [hnone] at heq
    exact Bool.eq_false_iff.mpr (List.find?_eq_none.mp heq.symm d hd)
  · rw [hreads k] at hk
    cases hk

/-- A directory is a map at any time: what was made and then changed by any sequence of calls, some of which may fail, is looked up as the map is. -/
theorem directory_looked_up {self parent : pfs_blockinfo_t} (hself : Fitting [46] self)
    (hparent : Fitting [46, 46] parent) (rs : List Request)
    (hr : PermittedAll rs (.fresh self parent, dots self parent)) (path : List UInt8) (hpath : path ≠ []) :
    (pfsGetDentry (fun _ => true) (performAll rs (.fresh self parent, dots self parent)).1 (.path path)).map
        (fun d => (entryAt (performAll rs (.fresh self parent, dots self parent)).1.bytes d).2) =
      (performAll rs (.fresh self parent, dots self parent)).2 path :=
  pfsGetDentry_stores (performAll_stores rs (fresh_stores hself hparent) hr) hpath fun _ => rfl

/-- A directory that `pfsCheckDirForFiles` lets go of has nothing left but itself and its parent. -/
theorem directory_emptied {self parent : pfs_blockinfo_t} (hself : Fitting [46] self)
    (hparent : Fitting [46, 46] parent) (rs : List Request)
    (hr : PermittedAll rs (.fresh self parent, dots self parent))
    (hempty : pfsCheckDirForFiles (fun _ => true) (performAll rs (.fresh self parent, dots self parent)).1 ≠ 0) :
    ∀ path r, (performAll rs (.fresh self parent, dots self parent)).2 path = some r →
      path = [46] ∨ path = [46, 46] :=
  pfsCheckDirForFiles_stores (performAll_stores rs (fresh_stores hself hparent) hr)
    (performAll_strings rs (dots_strings self parent) hr) (fun _ => rfl) hempty

private theorem permitted_add_remove {reads reads' : Nat → Bool} {g : Growth} {path path' : List UInt8}
    {bi : pfs_blockinfo_t} {mode : Nat} {x : Directory × Contents} (hfit : Fitting path bi) (hnew : x.2 path = none) :
    PermittedAll [.add reads g path bi mode, .remove reads' path'] x := by
  refine ⟨⟨hfit, hnew⟩, ?_⟩
  split
  · refine ⟨trivial, ?_⟩
    split <;> trivial
  · refine ⟨trivial, ?_⟩
    split <;> trivial

/-- A file is added to a new directory and removed from it. -/
theorem directory_emptied_new :
    let file : List Request :=
      [.add (fun _ => true) ⟨0, 0⟩ [97] ⟨700, 0, 1⟩ 0x2000, .remove (fun _ => true) [97]]
    let start : Directory × Contents := (.fresh ⟨600, 0, 1⟩ ⟨600, 0, 1⟩, dots ⟨600, 0, 1⟩ ⟨600, 0, 1⟩)
    ∀ path r, (performAll file start).2 path = some r → path = [46] ∨ path = [46, 46] := by
  intro file start
  have hdot : Fitting [46] ⟨600, 0, 1⟩ := ⟨by decide, by decide, by decide, by decide, by decide, by decide⟩
  have hdots : Fitting [46, 46] ⟨600, 0, 1⟩ := ⟨by decide, by decide, by decide, by decide, by decide, by decide⟩
  have hfile : Fitting [97] ⟨700, 0, 1⟩ := ⟨by decide, by decide, by decide, by decide, by decide, by decide⟩
  exact directory_emptied hdot hdots file (permitted_add_remove hfile rfl) (by decide +kernel)

/-- A file is added to a directory, and removed again. -/
theorem directory_looked_up_file :
    let file : List Request :=
      [.add (fun _ => true) ⟨0, 0⟩ [97] ⟨700, 0, 1⟩ 0x2000, .remove (fun _ => true) [97]]
    let start : Directory × Contents := (.fresh ⟨600, 0, 1⟩ ⟨600, 0, 1⟩, dots ⟨600, 0, 1⟩ ⟨600, 0, 1⟩)
    (pfsGetDentry (fun _ => true) (performAll file start).1 (.path [97])).map
      (fun d => (entryAt (performAll file start).1.bytes d).2) = (performAll file start).2 [97] := by
  intro file start
  have hdot : Fitting [46] ⟨600, 0, 1⟩ := ⟨by decide, by decide, by decide, by decide, by decide, by decide⟩
  have hdots : Fitting [46, 46] ⟨600, 0, 1⟩ := ⟨by decide, by decide, by decide, by decide, by decide, by decide⟩
  have hfile : Fitting [97] ⟨700, 0, 1⟩ := ⟨by decide, by decide, by decide, by decide, by decide, by decide⟩
  exact directory_looked_up hdot hdots file (permitted_add_remove hfile rfl) [97] (by decide)

end HddChecker.Pfs
