import HddChecker.Pfs.Directory
import Mathlib.Logic.Function.Basic

/-!
# What a directory stands for

A directory is a map from names to inodes: it is looked up by `pfsGetDentry`, a name is added by `pfsDirAddEntry` and taken away by `pfsDirRemoveEntry`. The entries are a chain through all sectors, of which none leaves its own.
-/

namespace HddChecker.Pfs

open Bytes Records

variable {b b' : Nat → UInt8} {d d2 n p q : Nat} {l l₁ l₂ mid : List Nat} {dir : Directory} {w : Wanted}
  {reads : Nat → Bool}

/-- The end of the sector of a place. -/
def sectorEnd (d : Nat) : Nat := d / 512 * 512 + 512

/-- The length of an entry that passes the tests of `pfsGetDentry`. -/
def entryLen (b : Nat → UInt8) (d : Nat) : Option Nat :=
  if sizeAt b d % 4 = 0 ∧ dentryLen (pLenAt b d) ≤ sizeAt b d ∧ d + sizeAt b d ≤ sectorEnd d then some (sizeAt b d)
  else none

theorem entryLen_eq_some : entryLen b d = some n ↔
    sizeAt b d = n ∧ n % 4 = 0 ∧ dentryLen (pLenAt b d) ≤ n ∧ d + n ≤ sectorEnd d := by
  unfold entryLen
  split
  · rename_i h
    constructor
    · intro heq
      cases heq
      exact ⟨rfl, h⟩
    · rintro ⟨rfl, -⟩
      rfl
  · rename_i h
    constructor
    · intro heq
      cases heq
    · rintro ⟨rfl, hok⟩
      exact absurd hok h

theorem entryLen_congr (hsize : sizeAt b' d = sizeAt b d) (hpLen : pLenAt b' d = pLenAt b d) :
    entryLen b' d = entryLen b d := by
  unfold entryLen
  rw [hsize, hpLen]

/-- The entries of a directory by their places. An entry with a name has an inode, and one without has none. -/
structure Entries (dir : Directory) (l : List Nat) : Prop where
  whole : dir.size % 512 = 0
  chain : Chain (entryLen dir.bytes) dir.size 0 l
  used : ∀ d ∈ l, inodeAt dir.bytes d = 0 ↔ pLenAt dir.bytes d = 0

/-! ### The scan -/

private theorem scanSector_end : scanSector b w d d = .through := by
  rw [scanSector, if_neg (Nat.lt_irrefl d)]

theorem scanSector_cons (h : entryLen b d = some n) (hlt : d < d2) (hend : sectorEnd d = d2) :
    scanSector b w d2 d = if w.meets b d then .found d else scanSector b w d2 (d + n) := by
  obtain ⟨rfl, hmod, hneeded, hwithin⟩ := entryLen_eq_some.mp h
  have hand : sizeAt b d &&& 3 = 0 := by
    rw [show (3 : Nat) = 2 ^ 2 - 1 from rfl, Nat.and_two_pow_sub_one_eq_mod]
    exact hmod
  rw [scanSector, if_pos hlt, if_neg (not_not.mpr hand), if_neg (by omega), if_neg (by omega)]

/-- The scan of the sector up to `d2`, and of those behind it. -/
def resume (reads : Nat → Bool) (dir : Directory) (w : Wanted) (d2 d : Nat) : Option Nat :=
  match scanSector dir.bytes w d2 d with
  | .found p => some p
  | .through => getDentryFrom reads dir w d2
  | .exit => none

theorem resume_end : resume reads dir w d d = getDentryFrom reads dir w d := by
  unfold resume
  rw [scanSector_end]

theorem getDentryFrom_eq : getDentryFrom reads dir w d =
    if d < dir.size ∧ reads (d / META_SIZE) then resume reads dir w (d + 512) d else none := by
  rw [getDentryFrom]
  by_cases hlt : d < dir.size
  · by_cases hread : reads (d / META_SIZE) = true
    · rw [if_pos hlt, if_pos hread, if_pos ⟨hlt, hread⟩]
      rfl
    · rw [if_pos hlt, if_neg hread, if_neg fun h => hread h.2]
  · rw [if_neg hlt, if_neg fun h => hlt h.1]

private theorem resume_chain (hwhole : dir.size % 512 = 0) (h : Chain (entryLen dir.bytes) dir.size d l) {d2 : Nat}
    (halign : d2 % 512 = 0) (hle : d ≤ d2) (hnear : d2 ≤ d + 512) (hin : d2 ≤ dir.size) :
    resume reads dir w d2 d = l.find? (w.meets dir.bytes) ∨
      resume reads dir w d2 d = none ∧ ∃ k, reads k = false := by
  induction h generalizing d2 with
  | nil =>
    obtain rfl : d2 = dir.size := Nat.le_antisymm hin hle
    rw [resume_end, getDentryFrom_eq, if_neg fun h => Nat.lt_irrefl _ h.1]
    exact .inl rfl
  | @cons d n l hlen hpos rest ih =>
    have hinside : ∀ {d2}, d2 % 512 = 0 → d < d2 → d2 ≤ d + 512 → d2 ≤ dir.size →
        resume reads dir w d2 d = (d :: l).find? (w.meets dir.bytes) ∨
          resume reads dir w d2 d = none ∧ ∃ k, reads k = false := by
      intro d2 halign hlt hnear hin
      have hend : sectorEnd d = d2 := by
        unfold sectorEnd
        omega
      have hwithin := (entryLen_eq_some.mp hlen).2.2.2
      rw [resume, scanSector_cons hlen hlt hend]
      by_cases hmeets : w.meets dir.bytes d = true
      · rw [if_pos hmeets, List.find?_cons_of_pos hmeets]
        exact .inl rfl
      · rw [if_neg hmeets, List.find?_cons_of_neg hmeets]
        exact ih halign (by omega) (by omega) hin
    rcases Nat.lt_or_eq_of_le hle with hlt | rfl
    · exact hinside halign hlt hnear hin
    · have hlt : d < dir.size := by
        have hrest := rest.le
        omega
      rw [resume_end, getDentryFrom_eq]
      by_cases hread : reads (d / META_SIZE) = true
      · rw [if_pos ⟨hlt, hread⟩]
        exact hinside (by omega) (by omega) (Nat.le_refl _) (by omega)
      · rw [if_neg fun h => hread h.2]
        exact .inr ⟨rfl, _, Bool.eq_false_iff.mpr hread⟩

theorem pfsGetDentry_entries (h : Entries dir l) (reads : Nat → Bool) (w : Wanted) :
    pfsGetDentry reads dir w = l.find? (w.meets dir.bytes) ∨
      pfsGetDentry reads dir w = none ∧ ∃ k, reads k = false := by
  have hscan : resume reads dir w 0 0 = l.find? (w.meets dir.bytes) ∨
      resume reads dir w 0 0 = none ∧ ∃ k, reads k = false :=
    resume_chain h.whole h.chain rfl (Nat.le_refl _) (by omega) (Nat.zero_le _)
  rwa [resume_end] at hscan

theorem pfsGetDentry_some (h : Entries dir l) (hget : pfsGetDentry reads dir w = some d) :
    d ∈ l ∧ w.meets dir.bytes d = true := by
  rcases pfsGetDentry_entries h reads w with heq | ⟨heq, -⟩
  · rw [heq] at hget
    exact ⟨List.mem_of_find?_eq_some hget, List.find?_some hget⟩
  · rw [heq] at hget
    cases hget

/-! ### The entry before -/

private theorem sector_split {start stop : Nat} (h : Chain (entryLen b) stop start l) {s : Nat} (hs : s % 512 = 0)
    (hstart : start ≤ s) (hstop : s ≤ stop) :
    ∃ l₀ mid, l = l₀ ++ mid ∧ Chain (entryLen b) s start l₀ ∧ Chain (entryLen b) stop s mid := by
  induction h with
  | nil =>
    obtain rfl := Nat.le_antisymm hstart hstop
    exact ⟨[], [], rfl, .nil, .nil⟩
  | @cons d n l hlen hpos rest ih =>
    rcases Nat.eq_or_lt_of_le hstart with rfl | hlt
    · exact ⟨[], d :: l, rfl, .nil, .cons hlen hpos rest⟩
    · have hwithin := (entryLen_eq_some.mp hlen).2.2.2
      unfold sectorEnd at hwithin
      obtain ⟨l₀, mid, rfl, hfirst, hlast⟩ := ih (by omega)
      exact ⟨d :: l₀, mid, rfl, .cons hlen hpos hfirst, hlast⟩

private theorem dlastOf_chain {start i fuel : Nat} (h : Chain (entryLen b) p start mid) (hi : i + (p - start) < 512)
    (hfuel : p - start < 8 * fuel) {dlast : Option Nat} :
    dlastOf b p fuel start i dlast = some (mid.getLast? <|> dlast) := by
  induction h generalizing fuel i dlast with
  | nil =>
    obtain ⟨fuel, rfl⟩ := Nat.exists_eq_succ_of_ne_zero (show fuel ≠ 0 by omega)
    rw [dlastOf, if_pos rfl]
    rfl
  | @cons d n l hlen hpos rest ih =>
    obtain ⟨fuel, rfl⟩ := Nat.exists_eq_succ_of_ne_zero (show fuel ≠ 0 by omega)
    obtain ⟨rfl, -, hneeded, -⟩ := entryLen_eq_some.mp hlen
    have hroom := dentryLen_pos b d
    have hrest := rest.le
    rw [dlastOf, if_neg (by omega), if_pos (by omega), ih (by omega) (by omega)]
    cases l with
    | nil => rfl
    | cons x l =>
      rw [List.getLast?_cons_cons, List.getLast?_eq_some_getLast (List.cons_ne_nil x l)]
      rfl

/-- The entry before `d` in its sector: there is none where `d` starts the sector. -/
theorem dlastOf_entries (h : Entries dir (l₁ ++ d :: l₂)) :
    dlastOf dir.bytes d 64 (d / 512 * 512) 0 none = some none ∧ d % 512 = 0 ∨
      ∃ l₀ p, l₁ = l₀ ++ [p] ∧ p / 512 = d / 512 ∧ dlastOf dir.bytes d 64 (d / 512 * 512) 0 none = some (some p) := by
  obtain ⟨mid, hbefore, hbehind⟩ := h.chain.split
  obtain ⟨rfl, -⟩ := hbehind.uncons
  obtain ⟨l₀, mid, rfl, hfirst, hlast⟩ := sector_split hbefore (s := d / 512 * 512) (by omega) (Nat.zero_le _) (by omega)
  have hwalk : dlastOf dir.bytes d 64 (d / 512 * 512) 0 none = some (mid.getLast? <|> none) :=
    dlastOf_chain hlast (by omega) (by omega)
  rcases List.eq_nil_or_concat mid with rfl | ⟨mid, p, rfl⟩
  · have hstart := hlast.eq_of_nil
    exact .inl ⟨hwalk, by omega⟩
  · have hp := hlast.bounds (p := p) (by simp)
    refine .inr ⟨l₀ ++ mid, p, by simp, by omega, ?_⟩
    rw [hwalk]
    simp

/-! ### Names -/

/-- A directory as a map from names. -/
abbrev Contents : Type := List UInt8 → Option Ref

/-- The entries of a directory with a name are those of the map. -/
structure Named (b : Nat → UInt8) (l : List Nat) (m : Contents) : Prop where
  listed : ∀ d ∈ l, pLenAt b d ≠ 0 → m (pathAt b d) = some (entryAt b d).2
  found : ∀ path r, m path = some r → ∃ d ∈ l, pLenAt b d ≠ 0 ∧ pathAt b d = path
  single : ∀ d ∈ l, ∀ d' ∈ l, pLenAt b d ≠ 0 → pathAt b d = pathAt b d' → d = d'

def Stores (dir : Directory) (m : Contents) : Prop := ∃ l, Entries dir l ∧ Named dir.bytes l m

variable {m : Contents} {path : List UInt8} {r : Ref}

theorem pathAt_of_entryAt {d' : Nat} (h : entryAt b' d' = entryAt b d) : pathAt b' d' = pathAt b d :=
  congrArg Prod.fst h

theorem pLenAt_ne_zero (hpath : path ≠ []) (h : pathAt b d = path) : pLenAt b d ≠ 0 := by
  rw [← length_pathAt, h]
  exact fun hlen => hpath (List.eq_nil_of_length_eq_zero hlen)

/-- One entry has a new name, and the others are as they were. -/
theorem Named.insert {l' : List Nat} (h : Named b l m) (hnew : m path = none) (hpath : path ≠ []) (hp : p ∈ l')
    (hentry : entryAt b' p = (path, r)) (hothers : ∀ x ∈ l', x ≠ p → x ∈ l ∧ entryAt b' x = entryAt b x)
    (hkept : ∀ x ∈ l, pLenAt b x ≠ 0 → x ∈ l' ∧ x ≠ p) : Named b' l' (Function.update m path (some r)) := by
  have hpathp : pathAt b' p = path := congrArg Prod.fst hentry
  have hne : ∀ x ∈ l', x ≠ p → pLenAt b' x ≠ 0 → pathAt b' x ≠ path := by
    intro x hx hxp hpLen heq
    obtain ⟨hmem, hsame⟩ := hothers x hx hxp
    have hlisted := h.listed x hmem (by rwa [← pLenAt_of_entryAt hsame])
    rw [← pathAt_of_entryAt hsame, heq, hnew] at hlisted
    cases hlisted
  refine ⟨?_, ?_, ?_⟩
  · intro x hx hpLen
    by_cases hxp : x = p
    · subst hxp
      rw [hpathp, Function.update_self, hentry]
    · obtain ⟨hmem, hsame⟩ := hothers x hx hxp
      rw [Function.update_of_ne (hne x hx hxp hpLen), pathAt_of_entryAt hsame, hsame]
      exact h.listed x hmem (by rwa [← pLenAt_of_entryAt hsame])
  · intro path' r' hfound
    by_cases heq : path' = path
    · exact ⟨p, hp, pLenAt_ne_zero hpath hpathp, hpathp.trans heq.symm⟩
    · rw [Function.update_of_ne heq] at hfound
      obtain ⟨x, hx, hpLen, rfl⟩ := h.found path' r' hfound
      obtain ⟨hx', hxp⟩ := hkept x hx hpLen
      obtain ⟨-, hsame⟩ := hothers x hx' hxp
      exact ⟨x, hx', by rwa [pLenAt_of_entryAt hsame], pathAt_of_entryAt hsame⟩
  · intro x hx x' hx' hpLen heq
    by_cases hxp : x = p
    · by_cases hxp' : x' = p
      · exact hxp.trans hxp'.symm
      · have hpLen' : pLenAt b' x' ≠ 0 := by rwa [← length_pathAt, ← heq, length_pathAt]
        exact absurd (heq.symm.trans (hxp ▸ hpathp)) (hne x' hx' hxp' hpLen')
    · by_cases hxp' : x' = p
      · exact absurd (heq.trans (hxp' ▸ hpathp)) (hne x hx hxp hpLen)
      · obtain ⟨hmem, hsame⟩ := hothers x hx hxp
        obtain ⟨hmem', hsame'⟩ := hothers x' hx' hxp'
        refine h.single x hmem x' hmem' (by rwa [← pLenAt_of_entryAt hsame]) ?_
        rw [← pathAt_of_entryAt hsame, heq, pathAt_of_entryAt hsame']

/-- One entry has lost its name, and the others are as they were. -/
theorem Named.erase {l' : List Nat} (h : Named b l m) (hp : p ∈ l) (hpath : pathAt b p = path)
    (hothers : ∀ x ∈ l', pLenAt b' x ≠ 0 → x ∈ l ∧ x ≠ p ∧ entryAt b' x = entryAt b x)
    (hkept : ∀ x ∈ l, x ≠ p → pLenAt b x ≠ 0 → x ∈ l' ∧ entryAt b' x = entryAt b x) :
    Named b' l' (Function.update m path none) := by
  refine ⟨?_, ?_, ?_⟩
  · intro x hx hpLen
    obtain ⟨hmem, hne, hsame⟩ := hothers x hx hpLen
    have hpLen' : pLenAt b x ≠ 0 := by rwa [← pLenAt_of_entryAt hsame]
    have hother : pathAt b x ≠ path := fun heq => hne (h.single x hmem p hp hpLen' (heq.trans hpath.symm))
    rw [pathAt_of_entryAt hsame, hsame, Function.update_of_ne hother]
    exact h.listed x hmem hpLen'
  · intro path' r' hfound
    by_cases heq : path' = path
    · rw [heq, Function.update_self] at hfound
      cases hfound
    · rw [Function.update_of_ne heq] at hfound
      obtain ⟨x, hx, hpLen, rfl⟩ := h.found path' r' hfound
      obtain ⟨hx', hsame⟩ := hkept x hx (fun hxp => heq (hxp ▸ hpath)) hpLen
      exact ⟨x, hx', by rwa [pLenAt_of_entryAt hsame], pathAt_of_entryAt hsame⟩
  · intro x hx x' hx' hpLen heq
    have hpLen' : pLenAt b' x' ≠ 0 := by rwa [← length_pathAt, ← heq, length_pathAt]
    obtain ⟨hmem, -, hsame⟩ := hothers x hx hpLen
    obtain ⟨hmem', -, hsame'⟩ := hothers x' hx' hpLen'
    refine h.single x hmem x' hmem' (by rwa [← pLenAt_of_entryAt hsame]) ?_
    rw [← pathAt_of_entryAt hsame, heq, pathAt_of_entryAt hsame']

theorem meets_path (name : List UInt8) : (Wanted.path name).meets b d = true ↔ pathAt b d = name := by
  unfold Wanted.meets
  rw [decide_eq_true_iff]
  constructor
  · exact fun h => h.2.symm
  · rintro rfl
    exact ⟨length_pathAt, rfl⟩

/-- A name is looked up in the map, where all blocks can be read. -/
theorem pfsGetDentry_stores (h : Stores dir m) (hpath : path ≠ []) (hreads : ∀ k, reads k = true) :
    (pfsGetDentry reads dir (.path path)).map (fun d => (entryAt dir.bytes d).2) = m path := by
  obtain ⟨l, hentries, hnamed⟩ := h
  rcases pfsGetDentry_entries hentries reads (.path path) with heq | ⟨-, k, hk⟩
  · rw [heq]
    cases hfind : l.find? ((Wanted.path path).meets dir.bytes) with
    | some d =>
      have hmeets := (meets_path path).mp (List.find?_some hfind)
      rw [Option.map_some, ← hnamed.listed d (List.mem_of_find?_eq_some hfind) (pLenAt_ne_zero hpath hmeets), hmeets]
    | none =>
      cases hm : m path with
      | none => rfl
      | some r =>
        obtain ⟨d, hd, -, hname⟩ := hnamed.found path r hm
        exact absurd ((meets_path path).mpr hname) (List.find?_eq_none.mp hfind d hd)
  · rw [hreads k] at hk
    cases hk

/-! ### Frames -/

/-- What is outside of a place is the same. -/
def SameOutside (b b' : Nat → UInt8) (start stop : Nat) : Prop := ∀ i, i < start ∨ stop ≤ i → b' i = b i

variable {start stop : Nat}

theorem Entries.len (h : Entries dir l) (hd : d ∈ l) : entryLen dir.bytes d = some (sizeAt dir.bytes d) := by
  obtain ⟨-, n, hn, -⟩ := h.chain.bounds hd
  rw [hn, (entryLen_eq_some.mp hn).1]

theorem Entries.cut (h : Entries dir (l₁ ++ d :: l₂)) :
    Chain (entryLen dir.bytes) d 0 l₁ ∧ Chain (entryLen dir.bytes) dir.size (d + sizeAt dir.bytes d) l₂ := by
  obtain ⟨mid, hbefore, hrest⟩ := h.chain.split
  obtain ⟨rfl, n, hlen, -, hbehind⟩ := hrest.uncons
  rw [(entryLen_eq_some.mp hlen).1]
  exact ⟨hbefore, hbehind⟩

theorem chain_same (h : Chain (entryLen b) stop start l) (hsame : ∀ i, start ≤ i → i < stop → b' i = b i) :
    Chain (entryLen b') stop start l ∧ ∀ x ∈ l, start ≤ x ∧ x < stop ∧ entryAt b' x = entryAt b x := by
  have hagree : ∀ x ∈ l, start ≤ x ∧ x < stop ∧ Agree b b' x (8 + pLenAt b x) := by
    intro x hx
    obtain ⟨hle, n, hn, hpos, hstop⟩ := h.bounds hx
    have hneeded := (entryLen_eq_some.mp hn).2.2.1
    have hroom := dentryLen_pos b x
    exact ⟨hle, by omega, fun i hi hlt => hsame i (by omega) (by omega)⟩
  refine ⟨h.congr fun x hx => ?_, fun x hx => ?_⟩
  · have hhead := (hagree x hx).2.2.mono (Nat.le_add_right 8 _)
    exact entryLen_congr hhead.sizeAt_eq hhead.pLenAt_eq
  · exact ⟨(hagree x hx).1, (hagree x hx).2.1, (hagree x hx).2.2.entryAt_eq⟩

theorem frame (hbefore : Chain (entryLen b) start 0 l₁) (hbehind : Chain (entryLen b) n stop l₂)
    (hout : SameOutside b b' start stop) :
    ∀ x ∈ l₁ ++ l₂, (x < start ∨ stop ≤ x) ∧ entryAt b' x = entryAt b x := by
  intro x hx
  rcases List.mem_append.mp hx with hx | hx
  · obtain ⟨-, hlt, hsame⟩ := (chain_same hbefore fun i _ hi => hout i (.inl hi)).2 x hx
    exact ⟨.inl hlt, hsame⟩
  · obtain ⟨hle, -, hsame⟩ := (chain_same hbehind fun i hi _ => hout i (.inr hi)).2 x hx
    exact ⟨.inr hle, hsame⟩

/-- Entries in a row are replaced by others that fill the same place. -/
theorem Entries.replace {new : List Nat} (h : Entries dir l) (hl : l = l₁ ++ (mid ++ l₂))
    (hbefore : Chain (entryLen dir.bytes) start 0 l₁) (hbehind : Chain (entryLen dir.bytes) dir.size stop l₂)
    (hout : SameOutside dir.bytes b' start stop) (hnew : Chain (entryLen b') stop start new)
    (hused : ∀ x ∈ new, inodeAt b' x = 0 ↔ pLenAt b' x = 0) : Entries ⟨dir.size, b'⟩ (l₁ ++ (new ++ l₂)) := by
  have hbefore' := (chain_same hbefore fun i _ hi => hout i (.inl hi)).1
  have hbehind' := (chain_same hbehind fun i hi _ => hout i (.inr hi)).1
  refine ⟨h.whole, hbefore'.append (hnew.append hbehind'), ?_⟩
  have hold : ∀ x ∈ l₁ ++ l₂, inodeAt b' x = 0 ↔ pLenAt b' x = 0 := by
    intro x hx
    have hsame := (frame hbefore hbehind hout x hx).2
    rw [inodeAt_of_entryAt hsame, pLenAt_of_entryAt hsame]
    refine h.used x ?_
    rw [hl]
    rcases List.mem_append.mp hx with hx | hx
    · exact List.mem_append_left _ hx
    · exact List.mem_append_right _ (List.mem_append_right _ hx)
  intro x hx
  rcases List.mem_append.mp hx with hx | hx
  · exact hold x (List.mem_append_left _ hx)
  · rcases List.mem_append.mp hx with hx | hx
    · exact hused x hx
    · exact hold x (List.mem_append_right _ hx)

end HddChecker.Pfs
