import Mathlib.Data.List.Range
import HddChecker.Hdst.SurfScan

/-!
# Filling sectors with zeros

The part of the driver `hdst:` that writes to the disk. The buffer is allocated by `SetIOBufferSize`, and `hdst_EraseSectors` writes it to the disk piece by piece. Which allocations succeed and what becomes of a transfer are part of the request, as the kernel and the disk decide them.
-/

namespace HddChecker.Hdst

def HDD_SECTOR_SIZE : Nat := 512
def DEFAULT_IO_BUFFER_SIZE : Int := 16

abbrev ENODEV : Int := 19
abbrev EINVAL : Int := 22
abbrev ENOMEM : Int := 12

/-- An `int` as an unsigned word. -/
def unsigned (n : Int) : Nat := (n % 2 ^ 32).toNat

/-- `IOBuffer` and `IOBufferSize`. The buffer is its size in bytes, or nothing where it is `NULL`. -/
structure Driver where
  IOBuffer : Option Nat
  IOBufferSize : Nat
  deriving DecidableEq, Repr

def Driver.allocated (d : Driver) : Nat := d.IOBuffer.getD 0

/-- `SetIOBufferSize`, where the allocation succeeds or not. -/
def SetIOBufferSize (alloc : Bool) (size : Int) : Int × Driver :=
  if alloc then (0, ⟨some (unsigned (size * HDD_SECTOR_SIZE)), unsigned size⟩) else (- ENOMEM, ⟨none, 0⟩)

/-- A sector that was written, and whether with zeros. -/
structure Written where
  lba : Nat
  zeros : Bool
  deriving DecidableEq, Repr

/-- A transfer of sectors out of a buffer that begins with so many zeros. -/
def transfer (zeros lba nsectors : Nat) : List Written :=
  (List.range nsectors).map fun i => ⟨lba + i, decide ((i + 1) * HDD_SECTOR_SIZE ≤ zeros)⟩

/-- The loop of `hdst_EraseSectors`: the result and the sectors written, or nothing while it has not ended. `io` has the results of `ata_device_sector_io`. -/
def eraseLoop (IOBufferSize zeros : Nat) : Nat → (Nat → Int) → Nat → Nat → Option (Int × List Written)
  | 0, _, _, _ => none
  | fuel + 1, io, lba, sectors =>
    if sectors = 0 then some (0, [])
    else
      let nsectors := if sectors > IOBufferSize then IOBufferSize else sectors
      if io 0 ≠ 0 then some (io 0, [])
      else (eraseLoop IOBufferSize zeros fuel (fun i => io (i + 1)) (u32 (lba + nsectors)) (sectors - nsectors)).map
        fun (result, written) => (result, transfer zeros lba nsectors ++ written)

def hdst_EraseSectors (d : Driver) (io : Nat → Int) (fuel lba sectors : Nat) : Option (Int × List Written) :=
  let zeros := u32 ((if sectors > d.IOBufferSize then d.IOBufferSize else sectors) * HDD_SECTOR_SIZE)
  eraseLoop d.IOBufferSize zeros fuel io lba sectors

/-- The commands of `hdst_devctl`; an argument is what `arg` points to. -/
inductive Request where
  | DEVICE_PS2_DETECT
  | DEVICE_IDENTIFY
  | DEVICE_VERIFY_SECTORS (lba sectors : Nat)
  | DEVICE_ERASE_SECTORS (lba sectors : Nat)
  | DEVICE_SMART_STATUS
  | DEVICE_FLUSH_CACHE (arg : Int)
  | SET_IO_BUFFER_SIZE (arg : Int)
  | unknown

/-- A request, and what the rest of the system makes of it. -/
structure DevCall where
  request : Request
  /-- the unit is supported and the device exists -/
  exist : Bool
  /-- the allocation of a buffer succeeds -/
  alloc : Bool
  /-- the results of `ata_device_sector_io` -/
  io : Nat → Int
  /-- the result of the function of another request -/
  other : Int

/-- What `hdst_devctl` leaves. -/
structure DevResult where
  result : Int
  written : List Written
  driver : Driver
  deriving DecidableEq, Repr

/-- `hdst_devctl`; nothing while it has not returned. -/
def hdst_devctl (fuel : Nat) (c : DevCall) (d : Driver) : Option DevResult :=
  if c.exist then
    match c.request with
    | .DEVICE_PS2_DETECT | .DEVICE_IDENTIFY | .DEVICE_VERIFY_SECTORS _ _ | .DEVICE_SMART_STATUS => some ⟨c.other, [], d⟩
    | .DEVICE_ERASE_SECTORS lba sectors =>
      (hdst_EraseSectors d c.io fuel lba sectors).map fun (result, written) => ⟨result, written, d⟩
    -- There is no `break` after the flush.
    | .DEVICE_FLUSH_CACHE arg | .SET_IO_BUFFER_SIZE arg =>
      let (result, d) := SetIOBufferSize c.alloc arg
      some ⟨result, [], d⟩
    | .unknown => some ⟨- EINVAL, [], d⟩
  else some ⟨- ENODEV, [], d⟩

/-- The states of the driver after requests that meet a condition; `hdst_init` allocates the first buffer. -/
inductive Requested (condition : DevCall → Driver → Prop) : Driver → Prop
  | init (alloc : Bool) : Requested condition (SetIOBufferSize alloc DEFAULT_IO_BUFFER_SIZE).2
  | devctl {d : Driver} {c : DevCall} {fuel : Nat} {o : DevResult} (h : Requested condition d) (hcondition : condition c d)
      (hreturn : hdst_devctl fuel c d = some o) : Requested condition o.driver

/-! ### What is promised -/

/-- The buffer has room for `IOBufferSize` sectors. -/
def Driver.Roomy (d : Driver) : Prop := d.IOBufferSize * HDD_SECTOR_SIZE ≤ d.allocated

/-- The request sets the size of the buffer. -/
def Request.SetsBuffer : Request → Prop
  | .SET_IO_BUFFER_SIZE _ => True
  | _ => False

structure Obeys (c : DevCall) (d : Driver) : Prop where
  /-- only the request to do so changes the buffer or its size -/
  kept : ¬ c.request.SetsBuffer → ∀ fuel o, hdst_devctl fuel c d = some o → o.driver = d
  /-- the size never exceeds what is allocated -/
  roomy : ∀ fuel o, hdst_devctl fuel c d = some o → o.driver.Roomy
  /-- a request to erase sectors returns -/
  returns : ∀ lba sectors, c.request = .DEVICE_ERASE_SECTORS lba sectors → ∃ fuel, (hdst_devctl fuel c d).isSome = true
  /-- and it returns 0 only if the sectors have been filled with zeros, each once, and no others written -/
  exact : ∀ lba sectors, c.request = .DEVICE_ERASE_SECTORS lba sectors → c.exist = true → ∀ fuel o,
    hdst_devctl fuel c d = some o → o.result = 0 → o.written = (List.range sectors).map fun i => ⟨lba + i, true⟩

/-- The pieces that are reached begin below 2^32. -/
def Addressable (IOBufferSize : Nat) (io : Nat → Int) (lba sectors : Nat) : Prop :=
  ∀ i, i * IOBufferSize < sectors → (∀ j < i, io j = 0) → lba + i * IOBufferSize < 2 ^ 32

/-- The requests for which this is so: no flush of the cache, no buffer whose size in bytes is no word, and nothing is to be erased without a buffer or beyond the sectors that have an address. -/
def Sound (c : DevCall) (d : Driver) : Prop :=
  c.exist = true →
    match c.request with
    | .DEVICE_FLUSH_CACHE _ => False
    | .SET_IO_BUFFER_SIZE arg => c.alloc = true → unsigned arg * HDD_SECTOR_SIZE < 2 ^ 32
    | .DEVICE_ERASE_SECTORS lba sectors =>
      (0 < sectors → 0 < d.IOBufferSize) ∧ Addressable d.IOBufferSize c.io lba sectors
    | _ => True

/-! ### The loop -/

variable {c : DevCall} {d : Driver} {io : Nat → Int} {B zeros fuel lba sectors : Nat}

private theorem transfer_zeros {n : Nat} (h : n * HDD_SECTOR_SIZE ≤ zeros) :
    transfer zeros lba n = (List.range n).map fun i => ⟨lba + i, true⟩ := by
  refine List.map_congr_left fun i hi => ?_
  rw [Written.mk.injEq]
  refine ⟨rfl, decide_eq_true ?_⟩
  exact (Nat.mul_le_mul_right _ (List.mem_range.mp hi)).trans h

private theorem map_range_add (n k : Nat) : ((List.range n).map fun i => (⟨lba + i, true⟩ : Written)) ++
    ((List.range k).map fun i => ⟨lba + n + i, true⟩) = (List.range (n + k)).map fun i => ⟨lba + i, true⟩ := by
  rw [List.range_add, List.map_append, List.map_map]
  refine congrArg _ (List.map_congr_left fun i _ => ?_)
  exact congrArg (fun l => (⟨l, true⟩ : Written)) (Nat.add_assoc _ _ _)

theorem piece_eq_min (B sectors : Nat) : (if sectors > B then B else sectors) = min B sectors := by
  split
  · exact (Nat.min_eq_left (by omega)).symm
  · exact (Nat.min_eq_right (by omega)).symm

theorem eraseLoop_done (io : Nat → Int) (lba : Nat) : eraseLoop B zeros (fuel + 1) io lba 0 = some (0, []) := if_pos rfl

theorem eraseLoop_fails (hmore : sectors ≠ 0) (hio : io 0 ≠ 0) :
    eraseLoop B zeros (fuel + 1) io lba sectors = some (io 0, []) := by
  rw [eraseLoop, if_neg hmore]
  exact if_pos hio

theorem eraseLoop_piece (hmore : sectors ≠ 0) (hio : io 0 = 0) : eraseLoop B zeros (fuel + 1) io lba sectors =
    (eraseLoop B zeros fuel (fun i => io (i + 1)) (u32 (lba + min B sectors)) (sectors - min B sectors)).map
      fun (result, written) => (result, transfer zeros lba (min B sectors) ++ written) := by
  rw [eraseLoop, if_neg hmore]
  simp only [hio, piece_eq_min, ne_eq, not_true_eq_false, if_false]

/-- The pieces after the first one. -/
theorem Addressable.rest (h : Addressable B io lba sectors) (hio : io 0 = 0) (hlt : B < sectors) :
    u32 (lba + B) = lba + B ∧ Addressable B (fun i => io (i + 1)) (lba + B) (sectors - B) := by
  constructor
  · have := h 1 (by omega) fun j hj => by
      obtain rfl : j = 0 := by omega
      exact hio
    exact Nat.mod_eq_of_lt (by omega)
  · intro i hi hbefore
    have := h (i + 1) (by rw [Nat.succ_mul]; omega) fun j hj => by
      cases j with
      | zero => exact hio
      | succ j => exact hbefore j (by omega)
    rw [Nat.succ_mul] at this
    omega

private theorem eraseLoop_returns (hB : 0 < B) (io : Nat → Int) (lba sectors : Nat) :
    ∃ fuel, (eraseLoop B zeros fuel io lba sectors).isSome = true := by
  induction sectors using Nat.strong_induction_on generalizing io lba with
  | _ sectors ih =>
    by_cases hmore : sectors = 0
    · subst hmore
      exact ⟨1, by rw [eraseLoop_done]; rfl⟩
    · by_cases hio : io 0 = 0
      · obtain ⟨fuel, hfuel⟩ := ih (sectors - min B sectors) (by omega) (fun i => io (i + 1)) (u32 (lba + min B sectors))
        refine ⟨fuel + 1, ?_⟩
        rw [eraseLoop_piece hmore hio, Option.isSome_map]
        exact hfuel
      · exact ⟨1, by rw [eraseLoop_fails hmore hio]; rfl⟩

private theorem eraseLoop_exact (h : Addressable B io lba sectors) (hzeros : min B sectors * HDD_SECTOR_SIZE ≤ zeros)
    {written : List Written} (hreturn : eraseLoop B zeros fuel io lba sectors = some (0, written)) :
    written = (List.range sectors).map fun i => ⟨lba + i, true⟩ := by
  induction fuel generalizing io lba sectors written with
  | zero => cases hreturn
  | succ fuel ih =>
    by_cases hmore : sectors = 0
    · subst hmore
      rw [eraseLoop_done] at hreturn
      cases hreturn
      rfl
    · by_cases hio : io 0 = 0
      · rw [eraseLoop_piece hmore hio] at hreturn
        obtain ⟨⟨result, rest⟩, hrest, heq⟩ := Option.map_eq_some_iff.mp hreturn
        obtain ⟨rfl, rfl⟩ := Prod.mk.inj heq
        rw [transfer_zeros hzeros]
        by_cases hlt : B < sectors
        · rw [Nat.min_eq_left hlt.le] at hrest hzeros ⊢
          obtain ⟨hlba, haddressable⟩ := h.rest hio hlt
          rw [hlba] at hrest
          have hle : min B (sectors - B) * HDD_SECTOR_SIZE ≤ zeros :=
            (Nat.mul_le_mul_right _ (Nat.min_le_left _ _)).trans hzeros
          rw [ih haddressable hle hrest, map_range_add, Nat.add_sub_cancel' hlt.le]
        · rw [Nat.min_eq_right (Nat.le_of_not_lt hlt)] at hrest ⊢
          rw [Nat.sub_self] at hrest
          have hnone : rest = [] := by
            cases fuel with
            | zero => cases hrest
            | succ fuel =>
              rw [eraseLoop_done] at hrest
              exact (Prod.mk.inj (Option.some.inj hrest)).2.symm
          rw [hnone, List.append_nil]
      · rw [eraseLoop_fails hmore hio] at hreturn
        exact absurd (Prod.mk.inj (Option.some.inj hreturn)).1 hio

private theorem eraseLoop_endless (hmore : sectors ≠ 0) (hio : ∀ i, io i = 0) (fuel : Nat) :
    eraseLoop 0 zeros fuel io lba sectors = none := by
  induction fuel generalizing io lba with
  | zero => rfl
  | succ fuel ih =>
    rw [eraseLoop_piece hmore (hio 0), Nat.zero_min, Nat.sub_zero, ih fun i => hio (i + 1)]
    rfl

/-! ### Requests -/

private theorem unsigned_lt (n : Int) : unsigned n < 2 ^ 32 := by
  unfold unsigned
  omega

private theorem unsigned_sectors {size : Int} (h : unsigned size * HDD_SECTOR_SIZE < 2 ^ 32) :
    unsigned (size * HDD_SECTOR_SIZE) = unsigned size * HDD_SECTOR_SIZE := by
  unfold unsigned HDD_SECTOR_SIZE at *
  omega

/-- The buffer has room, and its size is a word. -/
def Driver.Allocated (d : Driver) : Prop := d.Roomy ∧ d.allocated < 2 ^ 32

theorem setIOBufferSize_allocated {alloc : Bool} {size : Int}
    (h : alloc = true → unsigned size * HDD_SECTOR_SIZE < 2 ^ 32) : (SetIOBufferSize alloc size).2.Allocated := by
  unfold SetIOBufferSize
  split
  · rename_i halloc
    exact ⟨(unsigned_sectors (h halloc)).ge, unsigned_lt _⟩
  · exact ⟨le_rfl, by decide⟩

/-- What a sound request leaves of the driver. -/
theorem Sound.driver (h : Sound c d) {o : DevResult} (hreturn : hdst_devctl fuel c d = some o) :
    o.driver = d ∨ (c.request.SetsBuffer ∧ o.driver.Allocated) := by
  unfold hdst_devctl at hreturn
  split at hreturn
  · rename_i hexist
    have h := h hexist
    split at hreturn
    case h_5 =>
      obtain ⟨r, -, rfl⟩ := Option.map_eq_some_iff.mp hreturn
      exact .inl rfl
    case h_6 =>
      rename_i hrequest
      rw [hrequest] at h
      exact h.elim
    case h_7 =>
      rename_i hrequest
      rw [hrequest] at h ⊢
      cases hreturn
      exact .inr ⟨trivial, setIOBufferSize_allocated h⟩
    all_goals
      cases hreturn
      exact .inl rfl
  · cases hreturn
    exact .inl rfl

theorem Requested.allocated (h : Requested Sound d) : d.Allocated := by
  induction h with
  | init alloc => exact setIOBufferSize_allocated fun _ => by decide
  | devctl h hsound hreturn ih =>
    rcases hsound.driver hreturn with heq | ⟨-, hallocated⟩
    · rw [heq]
      exact ih
    · exact hallocated

theorem hdst_devctl_erase (hexist : c.exist = true) (hrequest : c.request = .DEVICE_ERASE_SECTORS lba sectors) :
    hdst_devctl fuel c d = (hdst_EraseSectors d c.io fuel lba sectors).map fun (result, written) => ⟨result, written, d⟩ := by
  unfold hdst_devctl
  rw [if_pos hexist, hrequest]

/-- In every sequence of requests each of which is sound, every sound request changes the buffer only if it is the one to do so, keeps its size within what is allocated, and erases exactly the sectors it should. -/
theorem hdst_devctl_obeys (d : Driver) (h : Requested Sound d) (c : DevCall) (hsound : Sound c d) :
    d.Roomy ∧ Obeys c d := by
  have hallocated := h.allocated
  refine ⟨hallocated.1, fun hnot fuel o hreturn => ?_, fun fuel o hreturn => ?_, fun lba sectors hrequest => ?_,
    fun lba sectors hrequest hexist fuel o hreturn hresult => ?_⟩
  · exact (hsound.driver hreturn).resolve_right fun hset => hnot hset.1
  · rcases hsound.driver hreturn with heq | ⟨-, hroomy⟩
    · rw [heq]
      exact hallocated.1
    · exact hroomy.1
  · by_cases hexist : c.exist = true
    · have hbuffer := hsound hexist
      rw [hrequest] at hbuffer
      simp only [hdst_devctl_erase hexist hrequest, Option.isSome_map, hdst_EraseSectors]
      rcases Nat.eq_zero_or_pos sectors with rfl | hpos
      · exact ⟨1, by rw [eraseLoop_done]; rfl⟩
      · exact eraseLoop_returns (hbuffer.1 hpos) _ _ _
    · exact ⟨0, by rw [hdst_devctl, if_neg hexist]; rfl⟩
  · have hbuffer := hsound hexist
    rw [hrequest] at hbuffer
    rw [hdst_devctl_erase hexist hrequest] at hreturn
    obtain ⟨⟨result, written⟩, hloop, rfl⟩ := Option.map_eq_some_iff.mp hreturn
    obtain rfl : result = 0 := hresult
    refine eraseLoop_exact hbuffer.2 ?_ hloop
    have hle : min d.IOBufferSize sectors * HDD_SECTOR_SIZE ≤ d.IOBufferSize * HDD_SECTOR_SIZE :=
      Nat.mul_le_mul_right _ (Nat.min_le_left _ _)
    have hroomy : d.IOBufferSize * HDD_SECTOR_SIZE ≤ d.allocated := hallocated.1
    rw [piece_eq_min, u32, Nat.mod_eq_of_lt (hle.trans_lt (hroomy.trans_lt hallocated.2))]

/-- A request to erase sectors on a device that exists. -/
def eraseCall (lba sectors : Nat) : DevCall := ⟨.DEVICE_ERASE_SECTORS lba sectors, true, true, fun _ => 0, 0⟩

theorem hdst_devctl_obeys_erase : (SetIOBufferSize true DEFAULT_IO_BUFFER_SIZE).2.Roomy ∧
    Obeys (eraseCall 100 40) (SetIOBufferSize true DEFAULT_IO_BUFFER_SIZE).2 := by
  refine hdst_devctl_obeys _ (.init true) _ fun _ => ⟨fun _ => by decide, fun i hi _ => ?_⟩
  have : i * 16 < 40 := hi
  change 100 + i * 16 < 2 ^ 32
  omega

/-- The first buffer was not allocated: erasing a sector never ends. -/
theorem not_obeys : ¬ ∀ d : Driver, Requested (fun _ _ => True) d → ∀ c : DevCall, d.Roomy ∧ Obeys c d := by
  intro h
  obtain ⟨fuel, hfuel⟩ := (h _ (.init false) (eraseCall 0 1)).2.returns 0 1 rfl
  rw [hdst_devctl_erase rfl rfl, Option.isSome_map, hdst_EraseSectors] at hfuel
  change (eraseLoop 0 0 fuel (fun _ => 0) 0 1).isSome = true at hfuel
  rw [eraseLoop_endless Nat.one_ne_zero fun _ => rfl] at hfuel
  cases hfuel

end HddChecker.Hdst
