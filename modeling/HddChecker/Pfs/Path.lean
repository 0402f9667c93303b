import HddChecker.Lib.Words
import HddChecker.Pfs.Contents

/-!
# Paths

The functions of `dir.c` that find a file by its path, over what the cache shows of an inode and how often each inode is in use. A path is a string without its zero. What the drive answers may be another at each read.
-/

namespace HddChecker.Pfs.Path

open Words

def ENOENT : Int := 2

def EACCES : Int := 13

def ENOTDIR : Int := 20

def EROFS : Int := 30

def ENAMETOOLONG : Int := 91

def ELOOP : Int := 92

abbrev O_WRONLY : Nat := 2

abbrev FIO_S_IFLNK : Nat := 0x4000

abbrev SLASH : UInt8 := 47

/-! ### Splitting a path -/

/-- `pfsSplitPath`: the next name of a path, and the path behind it. -/
def pfsSplitPath (filename : List UInt8) : Option (List UInt8 × List UInt8) :=
  let i := (filename.takeWhile (· = SLASH)).length
  let path := ((filename.drop i).take (1024 - i)).takeWhile (· ≠ SLASH)
  let i := i + path.length
  let i := i + (((filename.drop i).take (1024 - i)).takeWhile (· = SLASH)).length
  if i < 1024 then some (path.take 255, filename.drop i) else none

variable {filename path rest : List UInt8}

/-- What is left of a path is shorter, unless nothing is. -/
theorem pfsSplitPath_length (h : pfsSplitPath filename = some (path, rest)) (hrest : rest ≠ []) :
    rest.length < filename.length := by
  unfold pfsSplitPath at h
  dsimp only at h
  split at h
  · obtain ⟨-, rfl⟩ := Prod.mk.inj (Option.some.inj h)
    cases filename with
    | nil => simp at hrest
    | cons ch filename =>
      rw [List.length_drop]
      by_cases hch : ch = SLASH
      · rw [List.takeWhile_cons, if_pos (by simpa using hch)]
        simp only [List.length_cons]
        omega
      · rw [List.takeWhile_cons, if_neg (by simpa using hch)]
        simp [hch]
        omega
  · cases h

/-- A name is cut at 255 bytes, and the slashes and bytes up to the next name have to be fewer than 1024. -/
private theorem pfsSplitPath_cut {lead word trail : List UInt8} (h : Cut SLASH filename lead word trail rest) :
    pfsSplitPath filename =
      if lead.length + word.length + trail.length < 1024 then some (word.take 255, rest) else none := by
  have hslash : ∀ x : UInt8, decide (x = SLASH) = false ↔ x ≠ SLASH := fun x => decide_eq_false_iff_not
  have hrest : ∀ x, rest.head? = some x → decide (x = SLASH) = false := by
    rintro x hx
    rw [hslash]
    rintro rfl
    exact h.rest_head hx
  have htrail : ∀ x, (trail ++ rest).head? = some x → decide (x ≠ SLASH) = false := by
    intro x hx
    cases trail with
    | nil =>
      rw [h.rest_nil rfl] at hx
      cases hx
    | cons y trail =>
      obtain rfl : y = x := Option.some.inj hx
      simpa using h.trail_seps y (List.mem_cons_self ..)
  have hword : ∀ x, (word ++ (trail ++ rest)).head? = some x → decide (x = SLASH) = false := by
    intro x hx
    cases word with
    | nil =>
      rw [h.trail_nil rfl, h.rest_nil (h.trail_nil rfl)] at hx
      cases hx
    | cons y word =>
      obtain rfl : y = x := Option.some.inj hx
      simpa using h.word_free y (List.mem_cons_self ..)
  have hlead : filename.takeWhile (fun x => decide (x = SLASH)) = lead := by
    have htake := @takeWhile_take _ (fun x => decide (x = SLASH)) lead _ filename.length
      (fun x hx => by simpa using h.lead_seps x hx) hword
    rwa [← h.eq, List.take_length, List.take_of_length_le (by rw [h.eq]; simp)] at htake
  have hdrop : filename.drop lead.length = word ++ (trail ++ rest) := by
    rw [h.eq, List.drop_left]
  unfold pfsSplitPath
  dsimp only
  rw [hlead, hdrop, takeWhile_take (fun x hx => by simpa using h.word_free x hx) htrail, List.length_take]
  by_cases hshort : lead.length + word.length < 1024
  · have hbehind : filename.drop (lead.length + word.length) = trail ++ rest := by
      rw [← List.drop_drop, hdrop, List.drop_left]
    have hwhole : word.take (1024 - lead.length) = word := List.take_of_length_le (by omega)
    rw [Nat.min_eq_right (by omega), hwhole, hbehind,
      takeWhile_take (fun x hx => by simpa using h.trail_seps x hx) hrest, List.length_take]
    by_cases hall : lead.length + word.length + trail.length < 1024
    · rw [Nat.min_eq_right (by omega), if_pos hall, if_pos hall, ← List.drop_drop, hbehind, List.drop_left]
    · rw [if_neg (by omega), if_neg hall]
  · rw [if_neg (by omega), if_neg (by omega)]

/-- The names in a path, as they are looked up. -/
def names (filename : List UInt8) : List (List UInt8) := (words SLASH filename).map (List.take 255)

theorem pfsSplitPath_names (h : filename.length < 1024) : ∃ path rest, pfsSplitPath filename = some (path, rest) ∧
    rest.length < 1024 ∧
      if rest = [] then names filename = (if path = [] then [] else [path])
      else names filename = path :: names rest ∧ names rest ≠ [] := by
  obtain ⟨lead, word, trail, rest, hcut⟩ := exists_cut SLASH filename
  have hlength := congrArg List.length hcut.eq
  simp only [List.length_append] at hlength
  refine ⟨word.take 255, rest, ?_, by omega, ?_⟩
  · rw [pfsSplitPath_cut hcut, if_pos (by omega)]
  · by_cases hword : word = []
    · subst hword
      rw [if_pos (hcut.rest_nil (hcut.trail_nil rfl)), names, hcut.words_nil]
      rfl
    · have htake : word.take 255 ≠ [] := by simpa using hword
      rw [names, hcut.words_eq hword, List.map_cons, if_neg htake]
      by_cases hrest : rest = []
      · rw [if_pos hrest, hrest]
        rfl
      · rw [if_neg hrest]
        exact ⟨rfl, fun hnil => words_ne_nil hcut.rest_head hrest (List.map_eq_nil_iff.mp hnil)⟩

/-! ### Finding a file -/

/-- Where an inode is: its sub-partition and its zone. -/
abbrev Place : Type := Nat × Nat

/-- What the functions read of an inode: the mode, the bytes of its blocks and the string at `data[1]`. -/
structure Node where
  mode : Nat
  dir : Directory
  target : List UInt8

structure Cached where
  place : Place
  node : Node

/-- A mount, with the answers to the reads of inodes and of blocks of directories by their number and their place. -/
structure Mount where
  root_dir : Place
  current_dir : Place
  rdonly : Bool
  fetch : Nat → Place → Except Int Node
  reads : Nat → Place → Nat → Bool

/-- The uses of the buffers of inodes, whether one not in use was returned, and how many reads there have been. -/
structure Uses where
  nused : Place → Nat
  unused : Bool
  calls : Nat

def Uses.pfsCacheUsedAdd (s : Uses) (p : Place) : Uses :=
  { s with nused := Function.update s.nused p (s.nused p + 1) }

def Uses.pfsCacheFree (s : Uses) (p : Place) : Uses :=
  if s.nused p = 0 then { s with unused := true }
  else { s with nused := Function.update s.nused p (s.nused p - 1) }

/-- What a search returns, and the uses it leaves. -/
abbrev Search (α : Type) : Type := Except Int α × Uses

variable (v : Mount)

def pfsInodeGetData (p : Place) (s : Uses) : Search Cached :=
  match v.fetch s.calls p with
  | .ok node => (.ok ⟨p, node⟩, { s.pfsCacheUsedAdd p with calls := s.calls + 1 })
  | .error e => (.error e, { s with calls := s.calls + 1 })

def pfsCheckAccess (rdonly : Bool) (mode flags : Nat) : Int :=
  if rdonly ∧ flags &&& O_WRONLY ≠ 0 then -EROFS
  else
    let allowed := if mode &&& FIO_S_IFMT ≠ FIO_S_IFDIR ∧ mode &&& 0o111 = 0 then 6 else 7
    if allowed &&& flags &&& 7 = flags then 0 else -EACCES

def pfsInodeGetFileInDir (dirInode : Cached) (path : List UInt8) (s : Uses) : Search Cached :=
  if path = [] then (.ok dirInode, s.pfsCacheUsedAdd dirInode.place)
  else if dirInode.place = v.root_dir ∧ path = [46, 46] then (.ok dirInode, s.pfsCacheUsedAdd dirInode.place)
  else if pfsCheckAccess v.rdonly dirInode.node.mode 1 < 0 then
    (.error (pfsCheckAccess v.rdonly dirInode.node.mode 1), s)
  else
    match pfsGetDentry (v.reads s.calls dirInode.place) dirInode.node.dir (.path path) with
    | some d =>
      pfsInodeGetData v (subAt dirInode.node.dir.bytes d, inodeAt dirInode.node.dir.bytes d)
        { s with calls := s.calls + 1 }
    | none => (.error (-ENOENT), { s with calls := s.calls + 1 })

/-- `pfsInodeGetFile` for the target of a link. -/
abbrev Follow : Type := Cached → List UInt8 → Uses → Search Cached

/-- The loop of `pfsInodeGetParent` from one directory to the next; no link is followed where `pfsSymbolicLinks` is 4. -/
def nextInode (follow : Option Follow) (clink : Cached) (path : List UInt8) (s : Uses) : Search Cached :=
  match pfsInodeGetFileInDir v clink path s with
  | (.error e, s) => (.error e, s.pfsCacheFree clink.place)
  | (.ok inode, s) =>
    if inode.node.mode &&& FIO_S_IFMT = FIO_S_IFLNK then
      match follow with
      | none => (.error (-ELOOP), (s.pfsCacheFree clink.place).pfsCacheFree inode.place)
      | some pfsInodeGetFile =>
        match pfsInodeGetFile clink inode.node.target s with
        | (.error e, s) => (.error e, s.pfsCacheFree inode.place)
        | (.ok link, s) => (.ok link, s.pfsCacheFree inode.place)
    else (.ok inode, s.pfsCacheFree clink.place)

/-- The loop of `pfsInodeGetParent`. -/
def parentLoop (follow : Option Follow) (clink : Cached) (filename2 : List UInt8) (s : Uses) :
    Search (Cached × List UInt8) :=
  match _hsplit : pfsSplitPath filename2 with
  | none => (.error (-ENAMETOOLONG), s)
  | some (path, rest) =>
    if _hrest : rest = [] then
      if clink.node.mode &&& FIO_S_IFMT = FIO_S_IFDIR then (.ok (clink, path), s)
      else (.error (-ENOTDIR), s.pfsCacheFree clink.place)
    else
      match nextInode v follow clink path s with
      | (.error e, s) => (.error e, s)
      | (.ok inode, s) => parentLoop follow inode rest s
termination_by filename2.length
decreasing_by exact pfsSplitPath_length _hsplit _hrest

/-- The `clink` a caller gives, if it does, is returned. -/
def Uses.freeGiven (s : Uses) : Option Cached → Uses
  | none => s
  | some clink => s.pfsCacheFree clink.place

/-- The directory a path is searched from. -/
def startInode (clink : Option Cached) (filename : List UInt8) (s : Uses) : Search Cached :=
  if filename.head? = some SLASH then pfsInodeGetData v v.root_dir (s.freeGiven clink)
  else
    match clink with
    | none => pfsInodeGetData v v.current_dir s
    | some clink => (.ok clink, s)

/-- `pfsInodeGetParent`, with what becomes of links. -/
def parentWith (follow : Option Follow) (clink : Option Cached) (filename : List UInt8) (s : Uses) :
    Search (Cached × List UInt8) :=
  if filename = [] then (.error (-ENOENT), s.freeGiven clink)
  else
    match startInode v clink filename s with
    | (.error e, s) => (.error e, s)
    | (.ok clink, s) => parentLoop v follow clink filename s

/-- `pfsInodeGetFile`, with what becomes of links. -/
def fileWith (follow : Option Follow) (clink : Option Cached) (name : List UInt8) (s : Uses) : Search Cached :=
  match parentWith v follow clink name s with
  | (.error e, s) => (.error e, s)
  | (.ok (c, path), s) =>
    match pfsInodeGetFileInDir v c path s with
    | (fileInode, s) => (fileInode, s.pfsCacheFree c.place)

/-- What becomes of links where `n` more may be followed: `4 - pfsSymbolicLinks`. -/
def follows : Nat → Option Follow
  | 0 => none
  | n + 1 => some fun clink name s => fileWith v (follows n) (some clink) name s

def pfsInodeGetParent (n : Nat) : Option Cached → List UInt8 → Uses → Search (Cached × List UInt8) :=
  parentWith v (follows v n)

def pfsInodeGetFile (n : Nat) : Option Cached → List UInt8 → Uses → Search Cached := fileWith v (follows v n)

/-! ### The passes of the loop -/

section Passes

variable {v : Mount} {follow : Option Follow} {clink : Cached} {filename path rest : List UInt8} {s s' : Uses}

theorem parentLoop_none (hsplit : pfsSplitPath filename = none) :
    parentLoop v follow clink filename s = (.error (-ENAMETOOLONG), s) := by
  rw [parentLoop]
  split
  · rfl
  · rename_i hsome
    rw [hsplit] at hsome
    cases hsome

theorem parentLoop_last (hsplit : pfsSplitPath filename = some (path, [])) :
    parentLoop v follow clink filename s =
      if clink.node.mode &&& FIO_S_IFMT = FIO_S_IFDIR then (.ok (clink, path), s)
      else (.error (-ENOTDIR), s.pfsCacheFree clink.place) := by
  rw [parentLoop]
  split
  · rename_i hnone
    rw [hsplit] at hnone
    cases hnone
  · rename_i path' rest' hsplit'
    obtain ⟨rfl, rfl⟩ := Prod.mk.inj (Option.some.inj (hsplit.symm.trans hsplit'))
    exact dif_pos rfl

theorem parentLoop_error {e : Int} (hsplit : pfsSplitPath filename = some (path, rest)) (hrest : rest ≠ [])
    (hnext : nextInode v follow clink path s = (.error e, s')) :
    parentLoop v follow clink filename s = (.error e, s') := by
  rw [parentLoop]
  split
  · rename_i hnone
    rw [hsplit] at hnone
    cases hnone
  · rename_i path' rest' hsplit'
    obtain ⟨rfl, rfl⟩ := Prod.mk.inj (Option.some.inj (hsplit.symm.trans hsplit'))
    rw [dif_neg hrest, hnext]

theorem parentLoop_ok {inode : Cached} (hsplit : pfsSplitPath filename = some (path, rest)) (hrest : rest ≠ [])
    (hnext : nextInode v follow clink path s = (.ok inode, s')) :
    parentLoop v follow clink filename s = parentLoop v follow inode rest s' := by
  rw [parentLoop]
  split
  · rename_i hnone
    rw [hsplit] at hnone
    cases hnone
  · rename_i path' rest' hsplit'
    obtain ⟨rfl, rfl⟩ := Prod.mk.inj (Option.some.inj (hsplit.symm.trans hsplit'))
    rw [dif_neg hrest, hnext]

end Passes

/-! ### Uses -/

/-- The uses of the buffers are those of `base` and one for each of `l`, and none was returned that was not in use. -/
structure Held (base : Place → Nat) (l : List Place) (s : Uses) : Prop where
  nused : ∀ p, s.nused p = base p + l.count p
  unused : s.unused = false

section Uses

variable {v : Mount} {base : Place → Nat} {l : List Place} {s : Uses} {p q : Place} {clink : Cached} {follow : Option Follow}

theorem Held.used (h : Held base l s) : Held base (p :: l) (s.pfsCacheUsedAdd p) := by
  refine ⟨fun q => ?_, h.unused⟩
  dsimp only [Uses.pfsCacheUsedAdd]
  by_cases hq : q = p
  · subst hq
    rw [Function.update_self, h.nused, List.count_cons_self]
    omega
  · rw [Function.update_of_ne hq, h.nused, List.count_cons_of_ne (Ne.symm hq)]

theorem Held.freed (h : Held base (p :: l) s) : Held base l (s.pfsCacheFree p) := by
  have hp : s.nused p ≠ 0 := by
    rw [h.nused, List.count_cons_self]
    omega
  rw [Uses.pfsCacheFree, if_neg hp]
  refine ⟨fun q => ?_, h.unused⟩
  dsimp only
  by_cases hq : q = p
  · subst hq
    rw [Function.update_self, h.nused, List.count_cons_self]
    omega
  · rw [Function.update_of_ne hq, h.nused, List.count_cons_of_ne (Ne.symm hq)]

theorem Held.swap (h : Held base (p :: q :: l) s) : Held base (q :: p :: l) s :=
  ⟨fun x => by rw [h.nused, (List.Perm.swap q p l).count_eq], h.unused⟩

theorem Held.read {calls : Nat} (h : Held base l s) : Held base l { s with calls := calls } := ⟨h.nused, h.unused⟩

/-- What was found is in use, and where nothing was found the uses are as before. -/
def Found (base : Place → Nat) (l : List Place) : Search Cached → Prop
  | (.ok c, s) => Held base (c.place :: l) s
  | (.error _, s) => Held base l s

theorem pfsInodeGetData_found (h : Held base l s) : Found base l (pfsInodeGetData v p s) := by
  unfold pfsInodeGetData
  split
  · exact h.used.read
  · exact h.read

theorem pfsInodeGetFileInDir_found (clink : Cached) (path : List UInt8) (h : Held base l s) :
    Found base l (pfsInodeGetFileInDir v clink path s) := by
  unfold pfsInodeGetFileInDir
  split_ifs
  · exact h.used
  · exact h.used
  · exact h
  · split
    · exact pfsInodeGetData_found h.read
    · exact h.read

/-- What a search ends with: what it found is in use and nothing else, and a name too long leaves a directory in use. -/
def Settled {α : Type} (place : α → Place) (base : Place → Nat) (l : List Place) : Search α → Prop
  | (.ok c, s) => Held base (place c :: l) s
  | (.error e, s) => Held base l s ∨ e = -ENAMETOOLONG ∧ ∃ d, Held base (d :: l) s

/-- The searches for the targets of links keep the uses right. -/
def Settles (base : Place → Nat) (follow : Option Follow) : Prop :=
  ∀ get, follow = some get → ∀ (clink : Cached) (name : List UInt8) (l : List Place) (s : Uses),
    Held base (clink.place :: l) s → Settled Cached.place base l (get clink name s)

theorem nextInode_settled (hfollow : Settles base follow) (path : List UInt8) (h : Held base (clink.place :: l) s) :
    Settled Cached.place base l (nextInode v follow clink path s) := by
  have hfound := pfsInodeGetFileInDir_found (v := v) clink path h
  unfold nextInode
  generalize pfsInodeGetFileInDir v clink path s = found at hfound ⊢
  obtain ⟨result, s₁⟩ := found
  cases result with
  | error e => exact .inl (Held.freed hfound)
  | ok inode =>
    have hboth : Held base (inode.place :: clink.place :: l) s₁ := hfound
    dsimp only
    split_ifs with hlink
    · cases follow with
      | none => exact .inl hboth.swap.freed.freed
      | some get =>
        have htarget := hfollow get rfl clink inode.node.target (inode.place :: l) s₁ hboth.swap
        dsimp only
        generalize get clink inode.node.target s₁ = target at htarget ⊢
        obtain ⟨result, s₂⟩ := target
        cases result with
        | ok link => exact (Held.swap htarget).freed
        | error e =>
          rcases htarget with hleft | ⟨htoo, d, hleft⟩
          · exact .inl hleft.freed
          · exact .inr ⟨htoo, d, hleft.swap.freed⟩
    · exact hboth.swap.freed

private theorem parentLoop_settled (hfollow : Settles base follow) (filename : List UInt8)
    (h : Held base (clink.place :: l) s) :
    Settled (fun c => c.1.place) base l (parentLoop v follow clink filename s) := by
  fun_induction parentLoop v follow clink filename s with
  | case1 clink filename s hsplit => exact .inr ⟨rfl, clink.place, h⟩
  | case2 clink filename s path hsplit hdir => exact h
  | case3 clink filename s path hsplit hdir => exact .inl h.freed
  | case4 clink filename s path rest hsplit hrest e s' hnext =>
    have hsettled := nextInode_settled (v := v) hfollow path h
    rwa [hnext] at hsettled
  | case5 clink filename s path rest hsplit hrest inode s' hnext ih =>
    have hsettled := nextInode_settled (v := v) hfollow path h
    rw [hnext] at hsettled
    exact ih hsettled

/-- The place of the directory a caller gives, which it holds. -/
def given (clink : Option Cached) : List Place := clink.toList.map Cached.place

theorem freeGiven_held {clink : Option Cached} (h : Held base (given clink ++ l) s) : Held base l (s.freeGiven clink) := by
  cases clink with
  | none => exact h
  | some c => exact Held.freed h

private theorem startInode_found {clink : Option Cached} (filename : List UInt8) (h : Held base (given clink ++ l) s) :
    Found base l (startInode v clink filename s) := by
  unfold startInode
  split_ifs
  · exact pfsInodeGetData_found (freeGiven_held h)
  · cases clink with
    | none => exact pfsInodeGetData_found h
    | some c => exact h

private theorem parentWith_settled {clink : Option Cached} (hfollow : Settles base follow) (filename : List UInt8)
    (h : Held base (given clink ++ l) s) :
    Settled (fun c => c.1.place) base l (parentWith v follow clink filename s) := by
  unfold parentWith
  split_ifs
  · exact .inl (freeGiven_held h)
  · have hfound := startInode_found (v := v) filename h
    generalize startInode v clink filename s = start at hfound ⊢
    obtain ⟨result, s₁⟩ := start
    cases result with
    | error e => exact .inl hfound
    | ok c => exact parentLoop_settled hfollow filename hfound

theorem fileWith_settled {clink : Option Cached} (hfollow : Settles base follow) (name : List UInt8)
    (h : Held base (given clink ++ l) s) : Settled Cached.place base l (fileWith v follow clink name s) := by
  have hparent := parentWith_settled (v := v) hfollow name h
  unfold fileWith
  generalize parentWith v follow clink name s = parent at hparent ⊢
  obtain ⟨result, s₁⟩ := parent
  cases result with
  | error e => exact hparent
  | ok c =>
    obtain ⟨c, path⟩ := c
    have hfound := pfsInodeGetFileInDir_found (v := v) c path hparent
    dsimp only
    generalize pfsInodeGetFileInDir v c path s₁ = found at hfound ⊢
    obtain ⟨result, s₂⟩ := found
    cases result with
    | error e => exact .inl (Held.freed hfound)
    | ok inode => exact (Held.swap hfound).freed

theorem follows_settles (n : Nat) : Settles base (follows v n) := by
  induction n with
  | zero =>
    intro get hget
    cases hget
  | succ n ih =>
    rintro get hget clink name l s h
    obtain rfl := Option.some.inj hget
    exact fileWith_settled ih name h

/-- A search by a path, with whatever links and whatever reads that fail, leaves the file it found in use once more and every other buffer as often as before it, less the directory the caller gave; only a name too long leaves a directory in use. -/
theorem pfsInodeGetFile_uses (n : Nat) (clink : Option Cached) (name : List UInt8)
    (h : Held base (given clink) s) : Settled Cached.place base [] (pfsInodeGetFile v n clink name s) :=
  fileWith_settled (follows_settles n) name (by rwa [List.append_nil])

/-- A directory in use once by its caller, whose parent is a link to the root: the root alone is in use afterwards. -/
theorem pfsInodeGetFile_uses_link :
    let node (p : Place) : Node := ⟨if p = (0, 130) then 0x41FF else 0x11FF, .fresh ⟨129, 0, 1⟩ ⟨130, 0, 1⟩, [SLASH]⟩
    let v : Mount := ⟨(0, 129), (0, 129), false, fun _ p => .ok (node p), fun _ _ _ => true⟩
    let clink : Cached := ⟨(0, 131), node (0, 131)⟩
    let found := pfsInodeGetFile v 4 (some clink) [46, 46, 47, 46] ⟨fun p => [clink.place].count p, false, 0⟩
    found.1.toOption.map Cached.place = some (0, 129) ∧ Settled Cached.place (fun _ => 0) [] found := by
  intro node v clink found
  exact ⟨by decide +kernel,
    pfsInodeGetFile_uses 4 (some clink) [46, 46, 47, 46] ⟨fun p => (Nat.zero_add _).symm, rfl⟩⟩

end Uses

end HddChecker.Pfs.Path
