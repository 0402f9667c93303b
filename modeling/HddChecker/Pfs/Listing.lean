import HddChecker.Pfs.Naming

/-!
# Reading a directory

`pfsGetNextDentry`, called again and again from the first entry of a directory on, as a reader of the directory does.
-/

namespace HddChecker.Pfs

open Bytes Records

/-- What `pfsGetNextDentry` gives of an entry: the name and the place of the inode. -/
structure Listed where
  name : List UInt8
  number : Nat
  subpart : Nat
  deriving DecidableEq

def listedAt (b : Nat → UInt8) (d : Nat) : Listed := ⟨pathAt b d, inodeAt b d, subAt b d⟩

/-- `pfsGetNextDentry`: the next entry with a name, if one was read, and the new position. Its loop need not end, so that it goes on as long as `fuel` does. -/
def pfsGetNextDentry (reads : Nat → Bool) (dir : Directory) : (fuel position : Nat) → Option (Option Listed × Nat)
  | 0, _ => none
  | fuel + 1, position =>
    if position < dir.size then
      if reads (position / META_SIZE) then
        if pLenAt dir.bytes position ≠ 0 then
          some (some (listedAt dir.bytes position), position + sizeAt dir.bytes position)
        else pfsGetNextDentry reads dir fuel (position + sizeAt dir.bytes position)
      else some (none, position)
    else some (none, position)

/-- At most `n` calls of `pfsGetNextDentry`, each from the position of the one before, up to the first that gives no entry. -/
def readDirectory (reads : Nat → Bool) (dir : Directory) (fuel : Nat) : (n position : Nat) → Option (List Listed)
  | 0, _ => none
  | n + 1, position =>
    match pfsGetNextDentry reads dir fuel position with
    | none => none
    | some (none, _) => some []
    | some (some entry, position) => (readDirectory reads dir fuel n position).map (entry :: ·)

variable {reads : Nat → Bool} {dir : Directory} {m : Contents} {l : List Nat} {b : Nat → UInt8} {d fuel n : Nat}

theorem pfsGetNextDentry_stuck (hd : d < dir.size) (hread : reads (d / META_SIZE) = true)
    (hname : pLenAt dir.bytes d = 0) (hsize : sizeAt dir.bytes d = 0) (fuel : Nat) :
    pfsGetNextDentry reads dir fuel d = none := by
  induction fuel with
  | zero => rfl
  | succ fuel ih => rw [pfsGetNextDentry, if_pos hd, if_pos hread, if_neg (not_not.mpr hname), hsize, Nat.add_zero, ih]

/-- The entries with a name, as they are listed. -/
def listing (b : Nat → UInt8) (l : List Nat) : List Listed := (l.filter fun d => pLenAt b d ≠ 0).map (listedAt b)

private theorem listing_cons_named (h : pLenAt b d ≠ 0) : listing b (d :: l) = listedAt b d :: listing b l := by
  rw [listing, List.filter_cons_of_pos (by simpa using h)]
  rfl

private theorem listing_cons_empty (h : pLenAt b d = 0) : listing b (d :: l) = listing b l := by
  rw [listing, List.filter_cons_of_neg (by simpa using h)]
  rfl

private theorem pfsGetNextDentry_chain (reads : Nat → Bool) (h : Chain (entryLen dir.bytes) dir.size d l) (hfuel : l.length < fuel) :
    (∃ p, pfsGetNextDentry reads dir fuel d = some (none, p) ∧ ((∀ k, reads k = true) → listing dir.bytes l = [])) ∨
      ∃ entry p l', pfsGetNextDentry reads dir fuel d = some (some entry, p) ∧
        Chain (entryLen dir.bytes) dir.size p l' ∧ listing dir.bytes l = entry :: listing dir.bytes l' ∧
          l'.length < l.length := by
  induction h generalizing fuel with
  | nil =>
    obtain ⟨fuel, rfl⟩ := Nat.exists_eq_succ_of_ne_zero (Nat.ne_zero_of_lt hfuel)
    exact .inl ⟨dir.size, by rw [pfsGetNextDentry, if_neg (Nat.lt_irrefl _)], fun _ => rfl⟩
  | @cons d n l hlen hpos rest ih =>
    obtain ⟨fuel, rfl⟩ := Nat.exists_eq_succ_of_ne_zero (Nat.ne_zero_of_lt hfuel)
    have hlt : d < dir.size := by
      have hle := rest.le
      omega
    obtain rfl : sizeAt dir.bytes d = n := (entryLen_eq_some.mp hlen).1
    rw [pfsGetNextDentry, if_pos hlt]
    cases hread : reads (d / META_SIZE) with
    | false =>
      refine .inl ⟨d, if_neg (by decide), fun hall => ?_⟩
      rw [hall] at hread
      cases hread
    | true =>
      rw [if_pos rfl]
      by_cases hname : pLenAt dir.bytes d = 0
      · rw [if_neg (not_not.mpr hname), listing_cons_empty hname]
        rcases ih (Nat.lt_of_succ_lt_succ hfuel) with hnone | ⟨entry, p, l', hnext, hchain, hlist, hless⟩
        · exact .inl hnone
        · exact .inr ⟨entry, p, l', hnext, hchain, hlist, Nat.lt_succ_of_lt hless⟩
      · rw [if_pos hname]
        exact .inr ⟨_, _, l, rfl, rest, listing_cons_named hname, Nat.lt_succ_self _⟩

private theorem readDirectory_chain (reads : Nat → Bool) (h : Chain (entryLen dir.bytes) dir.size d l)
    (hfuel : l.length < fuel) (hn : l.length < n) :
    ∃ list, readDirectory reads dir fuel n d = some list ∧ list <+: listing dir.bytes l ∧
      ((∀ k, reads k = true) → list = listing dir.bytes l) := by
  induction n generalizing d l with
  | zero => exact absurd hn (Nat.not_lt_zero _)
  | succ n ih =>
    rw [readDirectory]
    rcases pfsGetNextDentry_chain reads h hfuel with
      ⟨p, hnext, hnone⟩ | ⟨entry, p, l', hnext, hchain, hlist, hless⟩
    · rw [hnext]
      exact ⟨[], rfl, ⟨_, rfl⟩, fun hall => (hnone hall).symm⟩
    · obtain ⟨list, hrun, hpre, hall⟩ := ih hchain (by omega) (by omega)
      rw [hnext, hlist]
      dsimp only
      rw [hrun]
      refine ⟨entry :: list, rfl, (List.prefix_cons_inj entry).mpr hpre, fun hreads => ?_⟩
      rw [hall hreads]

private theorem listing_named {l : List Nat} (hnodup : l.Nodup) (h : Named b l m) :
    ((listing b l).map Listed.name).Nodup ∧
      ∀ entry : Listed, entry ∈ listing b l ↔ ∃ r, m entry.name = some r ∧ entry.number = r.inode ∧ entry.subpart = r.sub := by
  constructor
  · rw [listing, List.map_map]
    refine List.Nodup.map_on ?_ (hnodup.filter _)
    intro x hx y hy heq
    obtain ⟨hx, hname⟩ := List.mem_filter.mp hx
    exact h.single x hx y (List.mem_filter.mp hy).1 (by simpa using hname) heq
  · intro entry
    constructor
    · intro hentry
      obtain ⟨x, hx, rfl⟩ := List.mem_map.mp hentry
      obtain ⟨hx, hname⟩ := List.mem_filter.mp hx
      exact ⟨_, h.listed x hx (by simpa using hname), rfl, rfl⟩
    · rintro ⟨r, hr, hnumber, hsubpart⟩
      obtain ⟨x, hx, hname, hpath⟩ := h.found entry.name r hr
      refine List.mem_map.mpr ⟨x, List.mem_filter.mpr ⟨hx, by simpa using hname⟩, ?_⟩
      have hsame := h.listed x hx hname
      rw [hpath, hr] at hsame
      obtain rfl := Option.some.inj hsame
      cases entry
      dsimp only at hpath hnumber hsubpart
      subst hpath hnumber hsubpart
      rfl

/-- A directory is listed as the map it is, at any time: what was made and then changed by any sequence of calls gives each of its names once and nothing else, in calls of `pfsGetNextDentry` that all end. A block that cannot be read only cuts the list short. -/
theorem directory_listed {self parent : pfs_blockinfo_t} (hself : Fitting [46] self)
    (hparent : Fitting [46, 46] parent) (rs : List Request)
    (hr : PermittedAll rs (.fresh self parent, dots self parent)) (reads : Nat → Bool)
    (hfuel : (performAll rs (.fresh self parent, dots self parent)).1.size < fuel) :
    ∃ list, readDirectory reads (performAll rs (.fresh self parent, dots self parent)).1 fuel fuel 0 = some list ∧
      (list.map Listed.name).Nodup ∧
      (∀ entry ∈ list, ∃ r, (performAll rs (.fresh self parent, dots self parent)).2 entry.name = some r ∧
        entry.number = r.inode ∧ entry.subpart = r.sub) ∧
      ((∀ k, reads k = true) → ∀ path r, (performAll rs (.fresh self parent, dots self parent)).2 path = some r →
        ⟨path, r.inode, r.sub⟩ ∈ list) := by
  obtain ⟨l, hentries, hnamed⟩ := performAll_stores rs (fresh_stores hself hparent) hr
  have hlength := hentries.chain.length_le
  obtain ⟨list, hlist, hpre, hall⟩ :=
    readDirectory_chain reads hentries.chain (show l.length < fuel by omega) (show l.length < fuel by omega)
  obtain ⟨hnodup, hmem⟩ := listing_named hentries.chain.nodup hnamed
  refine ⟨list, hlist, (hpre.map Listed.name).sublist.nodup hnodup, ?_, ?_⟩
  · exact fun entry hentry => (hmem entry).mp (hpre.subset hentry)
  · intro hreads path r hpath
    rw [hall hreads]
    exact (hmem ⟨path, r.inode, r.sub⟩).mpr ⟨r, hpath, rfl, rfl⟩

/-- A file is added to a new directory, and listed beside the two entries. -/
theorem directory_listed_new :
    let start : Directory × Contents := (.fresh ⟨600, 0, 1⟩ ⟨600, 0, 1⟩, dots ⟨600, 0, 1⟩ ⟨600, 0, 1⟩)
    let after := performAll [.add (fun _ => true) ⟨0, 0⟩ [97] ⟨700, 0, 1⟩ 0x2000] start
    ∃ list, readDirectory (fun _ => true) after.1 (after.1.size + 1) (after.1.size + 1) 0 = some list ∧
      (list.map Listed.name).Nodup ∧
      (∀ entry ∈ list, ∃ r, after.2 entry.name = some r ∧ entry.number = r.inode ∧ entry.subpart = r.sub) ∧
      ((∀ k, (fun _ : Nat => true) k = true) → ∀ path r, after.2 path = some r →
        ⟨path, r.inode, r.sub⟩ ∈ list) := by
  intro start after
  have hdot : Fitting [46] ⟨600, 0, 1⟩ := ⟨by decide, by decide, by decide, by decide, by decide, by decide⟩
  have hdots : Fitting [46, 46] ⟨600, 0, 1⟩ := ⟨by decide, by decide, by decide, by decide, by decide, by decide⟩
  have hfile : Fitting [97] ⟨700, 0, 1⟩ := ⟨by decide, by decide, by decide, by decide, by decide, by decide⟩
  have hpermitted : PermittedAll [.add (fun _ => true) ⟨0, 0⟩ [97] ⟨700, 0, 1⟩ 0x2000] start := by
    refine ⟨⟨hfile, rfl⟩, ?_⟩
    split <;> trivial
  exact directory_listed hdot hdots _ hpermitted (fun _ => true) (Nat.lt_succ_self _)

end HddChecker.Pfs
