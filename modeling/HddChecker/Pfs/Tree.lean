import HddChecker.Pfs.Naming
import HddChecker.Pfs.Path

/-!
# The files below a directory

What a path stands for in a tree of directories, name by name and with its links, and that the search of `dir.c` finds it where all reads succeed.
-/

namespace HddChecker.Pfs.Path

/-- The files of a mount, and the names in each directory. -/
structure Tree where
  root : Place
  rdonly : Bool
  node : Place → Node
  contents : Place → Contents

namespace Tree

variable (t : Tree)

def cached (p : Place) : Cached := ⟨p, t.node p⟩

def IsLink (p : Place) : Prop := (t.node p).mode &&& FIO_S_IFMT = FIO_S_IFLNK

def IsDir (p : Place) : Prop := (t.node p).mode &&& FIO_S_IFMT = FIO_S_IFDIR

instance (p : Place) : Decidable (t.IsLink p) := inferInstanceAs (Decidable (_ = _))

instance (p : Place) : Decidable (t.IsDir p) := inferInstanceAs (Decidable (_ = _))

/-- What a name stands for in a file: in a directory what the directory holds, and in any other file what its bytes say as the entries they are not. -/
def lookup (p : Place) (name : List UInt8) : Option Ref :=
  if t.IsDir p then t.contents p name
  else (pfsGetDentry (fun _ => true) (t.node p).dir (.path name)).map fun d => (entryAt (t.node p).dir.bytes d).2

/-- What a name stands for behind a file. No name stands for the file itself, and the root is its own parent. -/
def step (p : Place) (name : List UInt8) : Except Int Place :=
  if name = [] ∨ p = t.root ∧ name = [46, 46] then .ok p
  else if pfsCheckAccess t.rdonly (t.node p).mode 1 < 0 then .error (pfsCheckAccess t.rdonly (t.node p).mode 1)
  else
    match t.lookup p name with
    | some r => .ok (r.sub, r.inode)
    | none => .error (-ENOENT)

/-- What is behind a name that stands before another: of a link what it leads to. -/
def next (follow : Option (Place → List UInt8 → Except Int Place)) (p : Place) (name : List UInt8) : Except Int Place :=
  match t.step p name with
  | .error e => .error e
  | .ok q =>
    if t.IsLink q then
      match follow with
      | none => .error (-ELOOP)
      | some resolve => resolve p (t.node q).target
    else .ok q

def walk (follow : Option (Place → List UInt8 → Except Int Place)) : Place → List (List UInt8) → Except Int Place
  | p, [] => .ok p
  | p, name :: rest =>
    match t.next follow p name with
    | .error e => .error e
    | .ok q => walk follow q rest

/-- The last name of a path has to be in a directory, whatever the others are in. -/
def parent (follow : Option (Place → List UInt8 → Except Int Place)) (p : Place) (l : List (List UInt8)) :
    Except Int Place :=
  match t.walk follow p l.dropLast with
  | .error e => .error e
  | .ok q => if t.IsDir q then .ok q else .error (-ENOTDIR)

def finish (follow : Option (Place → List UInt8 → Except Int Place)) (p : Place) (l : List (List UInt8)) :
    Except Int Place :=
  match t.parent follow p l with
  | .error e => .error e
  | .ok q => t.step q (l.getLastD [])

def resolveWith (follow : Option (Place → List UInt8 → Except Int Place)) (p : Place) (path : List UInt8) :
    Except Int Place :=
  if path = [] then .error (-ENOENT)
  else t.finish follow (if path.head? = some SLASH then t.root else p) (names path)

/-- What links lead to where `n` more may be followed. -/
def leads : Nat → Option (Place → List UInt8 → Except Int Place)
  | 0 => none
  | n + 1 => some fun p path => t.resolveWith (leads n) p path

/-- What a path stands for from a directory, with at most `n` links one in the target of the other. -/
def resolve (n : Nat) : Place → List UInt8 → Except Int Place := t.resolveWith (t.leads n)

end Tree

/-- What the cache shows of a mount is a tree, and all of it can be read: the directories hold their names, and no link has a target of 1024 bytes or more. -/
structure Shows (v : Mount) (t : Tree) : Prop where
  root : v.root_dir = t.root
  rdonly : v.rdonly = t.rdonly
  fetch : ∀ k p, v.fetch k p = .ok (t.node p)
  reads : ∀ k p n, v.reads k p n = true
  stores : ∀ p, t.IsDir p → Stores (t.node p).dir (t.contents p)
  targets : ∀ p, t.IsLink p → (t.node p).target.length < 1024

section Shows

variable {v : Mount} {t : Tree} {follow : Option Follow} {lead : Option (Place → List UInt8 → Except Int Place)}

theorem pfsInodeGetData_shows (h : Shows v t) (p : Place) (s : Uses) :
    (pfsInodeGetData v p s).1 = .ok (t.cached p) := by
  rw [pfsInodeGetData, h.fetch]
  rfl

theorem pfsInodeGetFileInDir_shows (h : Shows v t) (p : Place) (name : List UInt8) (s : Uses) :
    (pfsInodeGetFileInDir v (t.cached p) name s).1 = (t.step p name).map t.cached := by
  unfold pfsInodeGetFileInDir Tree.step
  rw [h.root, h.rdonly]
  by_cases hname : name = []
  · rw [if_pos hname, if_pos (.inl hname)]
    rfl
  rw [if_neg hname]
  by_cases hroot : (t.cached p).place = t.root ∧ name = [46, 46]
  · rw [if_pos hroot, if_pos (.inr hroot)]
    rfl
  rw [if_neg hroot, if_neg (show ¬(name = [] ∨ p = t.root ∧ name = [46, 46]) from not_or.mpr ⟨hname, hroot⟩)]
  by_cases haccess : pfsCheckAccess t.rdonly (t.cached p).node.mode 1 < 0
  · rw [if_pos haccess, if_pos (show pfsCheckAccess t.rdonly (t.node p).mode 1 < 0 from haccess)]
    rfl
  rw [if_neg haccess, if_neg (show ¬pfsCheckAccess t.rdonly (t.node p).mode 1 < 0 from haccess)]
  have hlook : (pfsGetDentry (v.reads s.calls (t.cached p).place) (t.cached p).node.dir (.path name)).map
      (fun d => (entryAt (t.node p).dir.bytes d).2) = t.lookup p name := by
    unfold Tree.lookup
    by_cases hdir : t.IsDir p
    · rw [if_pos hdir]
      exact pfsGetDentry_stores (h.stores p hdir) hname (h.reads s.calls p)
    · have hreads : v.reads s.calls (t.cached p).place = fun _ => true := funext (h.reads s.calls p)
      rw [if_neg hdir, hreads]
      rfl
  rw [← hlook]
  cases pfsGetDentry (v.reads s.calls (t.cached p).place) (t.cached p).node.dir (.path name) with
  | none => rfl
  | some d => exact pfsInodeGetData_shows h _ _

/-- The search for the targets of links finds what they lead to. -/
def Leads (t : Tree) : Option Follow → Option (Place → List UInt8 → Except Int Place) → Prop
  | none, none => True
  | some get, some resolve => ∀ p path s, path.length < 1024 →
    (get (t.cached p) path s).1 = (resolve p path).map t.cached
  | _, _ => False

private theorem nextInode_shows (h : Shows v t) (hleads : Leads t follow lead) (p : Place) (name : List UInt8) (s : Uses) :
    (nextInode v follow (t.cached p) name s).1 = (t.next lead p name).map t.cached := by
  have hstep := pfsInodeGetFileInDir_shows h p name s
  unfold nextInode Tree.next
  generalize pfsInodeGetFileInDir v (t.cached p) name s = found at hstep ⊢
  obtain ⟨result, s₁⟩ := found
  obtain rfl : result = _ := hstep
  cases t.step p name with
  | error e => rfl
  | ok q =>
    dsimp only [Except.map]
    by_cases hlink : t.IsLink q
    · rw [if_pos (show (t.cached q).node.mode &&& FIO_S_IFMT = FIO_S_IFLNK from hlink), if_pos hlink]
      cases follow with
      | none =>
        cases lead with
        | none => rfl
        | some resolve => exact hleads.elim
      | some get =>
        cases lead with
        | none => exact hleads.elim
        | some resolve =>
          have htarget : (get (t.cached p) (t.cached q).node.target s₁).1 = _ :=
            hleads p (t.node q).target s₁ (h.targets q hlink)
          dsimp only
          generalize get (t.cached p) (t.cached q).node.target s₁ = target at htarget ⊢
          obtain ⟨result, s₂⟩ := target
          obtain rfl : result = _ := htarget
          cases resolve p (t.node q).target <;> rfl
    · rw [if_neg (show ¬(t.cached q).node.mode &&& FIO_S_IFMT = FIO_S_IFLNK from hlink), if_neg hlink]

private theorem getLastD_cons_of_ne_nil {α : Type} {x d : α} {l : List α} (hl : l ≠ []) : (x :: l).getLastD d = l.getLastD d := by
  cases l with
  | nil => exact absurd rfl hl
  | cons y l => rfl

/-- The loop goes through all names of a path but the last. -/
private theorem parentLoop_shows (h : Shows v t) (hleads : Leads t follow lead) (filename : List UInt8)
    (hlength : filename.length < 1024) (p : Place) (s : Uses) :
    (parentLoop v follow (t.cached p) filename s).1 =
      (t.parent lead p (names filename)).map fun q => (t.cached q, (names filename).getLastD []) := by
  induction hn : filename.length using Nat.strong_induction_on generalizing filename p s with
  | _ n ih =>
    subst hn
    obtain ⟨path, rest, hsplit, hrest, hnames⟩ := pfsSplitPath_names hlength
    by_cases hempty : rest = []
    · subst hempty
      rw [if_pos rfl] at hnames
      have hlast : (names filename).dropLast = [] ∧ (names filename).getLastD [] = path := by
        rw [hnames]
        by_cases hpath : path = []
        · rw [if_pos hpath, hpath]
          exact ⟨rfl, rfl⟩
        · rw [if_neg hpath]
          exact ⟨rfl, rfl⟩
      rw [parentLoop_last hsplit, Tree.parent, hlast.1, hlast.2, Tree.walk]
      dsimp only
      by_cases hdir : t.IsDir p
      · rw [if_pos hdir, if_pos (show (t.cached p).node.mode &&& FIO_S_IFMT = FIO_S_IFDIR from hdir)]
        rfl
      · rw [if_neg hdir, if_neg (show ¬(t.cached p).node.mode &&& FIO_S_IFMT = FIO_S_IFDIR from hdir)]
        rfl
    · rw [if_neg hempty] at hnames
      obtain ⟨hcons, hne⟩ := hnames
      rw [hcons, getLastD_cons_of_ne_nil hne, Tree.parent, List.dropLast_cons_of_ne_nil hne, Tree.walk]
      have hstep := nextInode_shows h hleads p path s
      cases hnext : nextInode v follow (t.cached p) path s with
      | mk result s₁ =>
        rw [hnext] at hstep
        obtain rfl : result = _ := hstep
        cases hnode : t.next lead p path with
        | error e =>
          rw [hnode] at hnext
          rw [parentLoop_error hsplit hempty hnext]
          rfl
        | ok q =>
          rw [hnode] at hnext
          rw [parentLoop_ok hsplit hempty hnext]
          exact ih rest.length (pfsSplitPath_length hsplit hempty) rest hrest q s₁ rfl

/-- Where a search begins, by what its caller gives. -/
def startOf (v : Mount) (clink : Option Place) : Place := clink.getD v.current_dir

private theorem startInode_shows (h : Shows v t) (clink : Option Place) (filename : List UInt8) (s : Uses) :
    (startInode v (clink.map t.cached) filename s).1 =
      .ok (t.cached (if filename.head? = some SLASH then t.root else startOf v clink)) := by
  unfold startInode
  split_ifs
  · rw [pfsInodeGetData_shows h, h.root]
  · cases clink with
    | none => exact pfsInodeGetData_shows h _ _
    | some p => rfl

theorem fileWith_shows (h : Shows v t) (hleads : Leads t follow lead) (clink : Option Place) (name : List UInt8)
    (hlength : name.length < 1024) (s : Uses) :
    (fileWith v follow (clink.map t.cached) name s).1 = (t.resolveWith lead (startOf v clink) name).map t.cached := by
  unfold fileWith parentWith Tree.resolveWith
  by_cases hname : name = []
  · rw [if_pos hname, if_pos hname]
    rfl
  rw [if_neg hname, if_neg hname]
  have hstart := startInode_shows h clink name s
  generalize startInode v (clink.map t.cached) name s = start at hstart ⊢
  obtain ⟨result, s₁⟩ := start
  obtain rfl : result = _ := hstart
  dsimp only
  have hparent := parentLoop_shows h hleads name hlength
    (if name.head? = some SLASH then t.root else startOf v clink) s₁
  unfold Tree.finish
  generalize parentLoop v follow _ name s₁ = parent at hparent ⊢
  obtain ⟨result, s₂⟩ := parent
  obtain rfl : result = _ := hparent
  cases t.parent lead (if name.head? = some SLASH then t.root else startOf v clink) (names name) with
  | error e => rfl
  | ok q => exact pfsInodeGetFileInDir_shows h q _ s₂

theorem follows_leads (h : Shows v t) (n : Nat) : Leads t (follows v n) (t.leads n) := by
  induction n with
  | zero => trivial
  | succ n ih => exact fun p path s hpath => fileWith_shows h ih (some p) path hpath s

end Shows

/-! ### The errors of a search -/

/-- What a path can fail with in a tree. -/
def failures : List Int := [-ENOENT, -EACCES, -ENOTDIR, -ELOOP]

section Failures

variable {t : Tree} {lead : Option (Place → List UInt8 → Except Int Place)} {e : Int}

/-- What links lead to fails in no other way. -/
def Fails (lead : Option (Place → List UInt8 → Except Int Place)) : Prop :=
  ∀ resolve, lead = some resolve → ∀ p path e, resolve p path = .error e → e ∈ failures

private theorem pfsCheckAccess_search (rdonly : Bool) (mode : Nat) :
    pfsCheckAccess rdonly mode 1 = 0 ∨ pfsCheckAccess rdonly mode 1 = -EACCES := by
  unfold pfsCheckAccess
  rw [if_neg (by simp)]
  dsimp only
  split_ifs <;> simp

theorem step_failure (p : Place) (name : List UInt8) (h : t.step p name = .error e) : e ∈ failures := by
  unfold Tree.step at h
  split_ifs at h with hself haccess
  · obtain rfl := Except.error.inj h
    rcases pfsCheckAccess_search t.rdonly (t.node p).mode with hzero | hdenied
    · rw [hzero] at haccess
      exact absurd haccess (by decide)
    · rw [hdenied]
      decide
  · split at h
    · cases h
    · obtain rfl := Except.error.inj h
      decide

private theorem next_failure (hfails : Fails lead) (p : Place) (name : List UInt8) (h : t.next lead p name = .error e) :
    e ∈ failures := by
  unfold Tree.next at h
  split at h
  · rename_i hstep
    obtain rfl := Except.error.inj h
    exact step_failure p name hstep
  · split_ifs at h with hlink
    split at h
    · obtain rfl := Except.error.inj h
      decide
    · exact hfails _ rfl _ _ _ h

private theorem walk_failure (hfails : Fails lead) (l : List (List UInt8)) (p : Place) (h : t.walk lead p l = .error e) :
    e ∈ failures := by
  induction l generalizing p with
  | nil => cases h
  | cons name l ih =>
    rw [Tree.walk] at h
    split at h
    · rename_i hnext
      obtain rfl := Except.error.inj h
      exact next_failure hfails p name hnext
    · exact ih _ h

theorem resolveWith_failure (hfails : Fails lead) (p : Place) (path : List UInt8)
    (h : t.resolveWith lead p path = .error e) : e ∈ failures := by
  unfold Tree.resolveWith Tree.finish at h
  by_cases hempty : path = []
  · rw [if_pos hempty] at h
    obtain rfl := Except.error.inj h
    decide
  · rw [if_neg hempty] at h
    split at h
    · rename_i hparent
      obtain rfl := Except.error.inj h
      unfold Tree.parent at hparent
      split at hparent
      · rename_i hwalk
        obtain rfl := Except.error.inj hparent
        exact walk_failure hfails _ _ hwalk
      · split_ifs at hparent
        obtain rfl := Except.error.inj hparent
        decide
    · exact step_failure _ _ h

private theorem leads_fails (n : Nat) : Fails (t.leads n) := by
  induction n with
  | zero =>
    intro resolve hresolve
    cases hresolve
  | succ n ih =>
    intro resolve hresolve p path e h
    obtain rfl := Option.some.inj hresolve
    exact resolveWith_failure ih p path h

end Failures

section Searches

variable {v : Mount} {t : Tree} {base : Place → Nat} {s : Uses} {name : List UInt8}

/-- A search by a path of fewer than 1024 bytes finds what the path stands for in the tree, name by name and through its links, or fails as the tree does; what it found is then in use once more, and nothing else. -/
theorem pfsInodeGetFile_resolve (h : Shows v t) (n : Nat) (clink : Option Place) (hlength : name.length < 1024)
    (hheld : Held base (given (clink.map t.cached)) s) :
    (pfsInodeGetFile v n (clink.map t.cached) name s).1 = (t.resolve n (startOf v clink) name).map t.cached ∧
      Found base [] (pfsInodeGetFile v n (clink.map t.cached) name s) := by
  have hresult := fileWith_shows h (follows_leads h n) clink name hlength s
  have hsettled : Settled Cached.place base [] (pfsInodeGetFile v n (clink.map t.cached) name s) :=
    fileWith_settled (follows_settles n) name (by rwa [List.append_nil])
  refine ⟨hresult, ?_⟩
  change (pfsInodeGetFile v n (clink.map t.cached) name s).1 = _ at hresult
  generalize pfsInodeGetFile v n (clink.map t.cached) name s = found at hresult hsettled ⊢
  obtain ⟨result, s₁⟩ := found
  obtain rfl : result = _ := hresult
  cases hresolve : t.resolveWith (t.leads n) (startOf v clink) name with
  | ok q =>
    rw [hresolve] at hsettled
    exact hsettled
  | error e =>
    rw [hresolve] at hsettled
    rcases hsettled with hleft | ⟨rfl, -⟩
    · exact hleft
    · exact absurd (resolveWith_failure (leads_fails n) _ _ hresolve) (by decide)

/-- Directories with a root at zone 129, which has a link to the root at zone 130 for its parent. -/
def linkedTree : Tree where
  root := (0, 129)
  rdonly := false
  node := fun p => ⟨if p = (0, 130) then 0x41FF else 0x11FF, .fresh ⟨129, 0, 1⟩ ⟨130, 0, 1⟩, [SLASH]⟩
  contents := fun _ => dots ⟨129, 0, 1⟩ ⟨130, 0, 1⟩

def linkedMount : Mount where
  root_dir := (0, 129)
  current_dir := (0, 131)
  rdonly := false
  fetch := fun _ p => .ok (linkedTree.node p)
  reads := fun _ _ _ => true

theorem linked_shows : Shows linkedMount linkedTree := by
  have hself : Fitting [46] ⟨129, 0, 1⟩ := ⟨by decide, by decide, by decide, by decide, by decide, by decide⟩
  have hparent : Fitting [46, 46] ⟨130, 0, 1⟩ := ⟨by decide, by decide, by decide, by decide, by decide, by decide⟩
  exact ⟨rfl, rfl, fun _ _ => rfl, fun _ _ _ => rfl, fun _ _ => fresh_stores hself hparent,
    fun _ _ => show 1 < 1024 by decide⟩

theorem linked_resolve (n : Nat) : linkedTree.resolve (n + 1) (0, 131) [46, 46, 47, 46] = .ok (0, 129) := by
  rfl

/-- The path `../.` of a directory whose parent is a link to the root stands for the root. -/
theorem pfsInodeGetFile_resolve_link :
    let found := pfsInodeGetFile linkedMount 4 none [46, 46, 47, 46] ⟨fun _ => 0, false, 0⟩
    found.1 = .ok (linkedTree.cached (0, 129)) ∧ Found (fun _ => 0) [] found := by
  obtain ⟨hresult, hfound⟩ := pfsInodeGetFile_resolve linked_shows 4 none
    (show ([46, 46, 47, 46] : List UInt8).length < 1024 by decide)
    (show Held (fun _ => 0) [] ⟨fun _ => 0, false, 0⟩ from ⟨fun _ => rfl, rfl⟩)
  exact ⟨hresult.trans (congrArg (Except.map linkedTree.cached) (linked_resolve 3)), hfound⟩

end Searches

/-! ### Links -/

section Links

variable {v : Mount} {follow follow' : Option Follow}

/-- Where one search for the targets of links ends, other than by too many links, another ends in the same way. -/
def Extends (follow follow' : Option Follow) : Prop :=
  ∀ get, follow = some get → ∃ get', follow' = some get' ∧
    ∀ clink name s, (get clink name s).1 ≠ .error (-ELOOP) → get' clink name s = get clink name s

private theorem nextInode_extends (hextends : Extends follow follow') (clink : Cached) (path : List UInt8) (s : Uses)
    (hne : (nextInode v follow clink path s).1 ≠ .error (-ELOOP)) :
    nextInode v follow' clink path s = nextInode v follow clink path s := by
  unfold nextInode at hne ⊢
  generalize pfsInodeGetFileInDir v clink path s = found at hne ⊢
  obtain ⟨result, s₁⟩ := found
  cases result with
  | error e => rfl
  | ok inode =>
    dsimp only at hne ⊢
    split_ifs at hne ⊢ with hlink
    · cases follow with
      | none => exact absurd rfl hne
      | some get =>
        obtain ⟨get', rfl, hsame⟩ := hextends get rfl
        dsimp only at hne ⊢
        rw [hsame clink inode.node.target s₁ fun heq => hne ?_]
        generalize get clink inode.node.target s₁ = target at heq ⊢
        obtain ⟨result, s₂⟩ := target
        obtain rfl : result = _ := heq
        rfl
    · rfl

private theorem parentLoop_extends (hextends : Extends follow follow') (clink : Cached) (filename : List UInt8) (s : Uses)
    (hne : (parentLoop v follow clink filename s).1 ≠ .error (-ELOOP)) :
    parentLoop v follow' clink filename s = parentLoop v follow clink filename s := by
  induction hn : filename.length using Nat.strong_induction_on generalizing clink filename s with
  | _ n ih =>
    subst hn
    cases hsplit : pfsSplitPath filename with
    | none => rw [parentLoop_none hsplit, parentLoop_none hsplit]
    | some cut =>
      obtain ⟨path, rest⟩ := cut
      by_cases hrest : rest = []
      · subst hrest
        rw [parentLoop_last hsplit, parentLoop_last hsplit]
      · have hsame := nextInode_extends (v := v) hextends clink path s
        cases hnext : nextInode v follow clink path s with
        | mk result s₁ =>
          rw [hnext] at hsame
          cases result with
          | error e =>
            rw [parentLoop_error hsplit hrest hnext] at hne ⊢
            exact parentLoop_error hsplit hrest
              (hsame fun heq => hne (congrArg Except.error (Except.error.inj heq)))
          | ok inode =>
            rw [parentLoop_ok hsplit hrest hnext] at hne ⊢
            rw [parentLoop_ok hsplit hrest (hsame (by simp))]
            exact ih rest.length (pfsSplitPath_length hsplit hrest) inode rest s₁ hne rfl

private theorem parentWith_extends (hextends : Extends follow follow') (clink : Option Cached) (filename : List UInt8)
    (s : Uses) (hne : (parentWith v follow clink filename s).1 ≠ .error (-ELOOP)) :
    parentWith v follow' clink filename s = parentWith v follow clink filename s := by
  unfold parentWith at hne ⊢
  by_cases hempty : filename = []
  · rw [if_pos hempty, if_pos hempty]
  · rw [if_neg hempty] at hne ⊢
    rw [if_neg hempty]
    generalize startInode v clink filename s = start at hne ⊢
    obtain ⟨result, s₁⟩ := start
    cases result with
    | error e => rfl
    | ok c => exact parentLoop_extends hextends c filename s₁ hne

theorem fileWith_extends (hextends : Extends follow follow') (clink : Option Cached) (name : List UInt8) (s : Uses)
    (hne : (fileWith v follow clink name s).1 ≠ .error (-ELOOP)) :
    fileWith v follow' clink name s = fileWith v follow clink name s := by
  have hparent : (parentWith v follow clink name s).1 ≠ .error (-ELOOP) := by
    intro hloop
    apply hne
    unfold fileWith
    generalize parentWith v follow clink name s = parent at hloop ⊢
    obtain ⟨result, s₁⟩ := parent
    obtain rfl : result = _ := hloop
    rfl
  unfold fileWith
  rw [parentWith_extends hextends clink name s hparent]

private theorem follows_extends (v : Mount) (n : Nat) : Extends (follows v n) (follows v (n + 1)) := by
  induction n with
  | zero =>
    intro get hget
    cases hget
  | succ n ih =>
    intro get hget
    obtain rfl := Option.some.inj hget
    exact ⟨_, rfl, fun clink name s hne => fileWith_extends ih (some clink) name s hne⟩

/-- The bound on links in the targets of links only ends searches: what one ends with otherwise is the same under any larger bound. -/
theorem pfsInodeGetFile_bound {n m : Nat} (hnm : n ≤ m) (clink : Option Cached) (name : List UInt8) (s : Uses)
    (hne : (pfsInodeGetFile v n clink name s).1 ≠ .error (-ELOOP)) :
    pfsInodeGetFile v m clink name s = pfsInodeGetFile v n clink name s := by
  induction m, hnm using Nat.le_induction with
  | base => rfl
  | succ m hnm ih =>
    rw [← ih] at hne ⊢
    exact fileWith_extends (follows_extends v m) clink name s hne

/-- One link is on the way of `../.`, so that any bound from 1 on does. -/
theorem pfsInodeGetFile_bound_link :
    pfsInodeGetFile linkedMount 4 none [46, 46, 47, 46] ⟨fun _ => 0, false, 0⟩ =
      pfsInodeGetFile linkedMount 1 none [46, 46, 47, 46] ⟨fun _ => 0, false, 0⟩ := by
  refine pfsInodeGetFile_bound (by decide) none _ _ ?_
  have hresult := fileWith_shows linked_shows (follows_leads linked_shows 1) none [46, 46, 47, 46] (by decide)
    ⟨fun _ => 0, false, 0⟩
  have hresolve : linkedTree.resolveWith (linkedTree.leads 1) (startOf linkedMount none) [46, 46, 47, 46] = _ :=
    linked_resolve 0
  rw [hresolve] at hresult
  intro hloop
  have hboth := hresult.symm.trans hloop
  cases hboth

end Links

end HddChecker.Pfs.Path
