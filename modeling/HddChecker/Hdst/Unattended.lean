import HddChecker.Hdst.Coverage

/-!
# Whether an unattended scan ends

Nobody is there to press a button, but for the answer to the message of a failed patch. What a pass meets is then decided by the disk alone: whether a sector can be verified before and after it was filled with zeros, and whether that succeeds. Every pass comes closer to the end but one, in which a sector is overwritten and is ahead of the cursor still.
-/

namespace HddChecker.Hdst

open Ui

/-- How the sectors of a disk behave. -/
structure Medium where
  /-- the sector cannot be verified before it is filled with zeros -/
  before : Nat → Bool
  /-- the sector cannot be verified after it was filled with zeros -/
  after : Nat → Bool
  /-- the answer to `HDST_DEVCTL_DEVICE_ERASE_SECTORS` -/
  zeroFill : Nat → Int

namespace Medium

/-- The sector cannot be verified once these were filled with zeros. -/
def fails (m : Medium) (zeroed : List Nat) (x : Nat) : Bool := if x ∈ zeroed then m.after x else m.before x

/-- The answer to `HDST_DEVCTL_DEVICE_VERIFY_SECTORS`: the first sector that cannot be verified counts. -/
def verify (m : Medium) (zeroed : List Nat) (lba count : Nat) : Int :=
  match (List.range count).find? fun i => m.fails zeroed (lba + i) with
  | some i => i + 1
  | none => 0

def round (m : Medium) (zeroed : List Nat) (failed : List PadFrame) (s : Scan) : Round where
  cancel := false
  abort := []
  verify := m.verify zeroed s.lba (min s.SectorsRemaining 65536)
  action := []
  patch := m.zeroFill (s.lba + (m.verify zeroed s.lba (min s.SectorsRemaining 65536) - 1).toNat)
  failed := failed

/-- The sectors that were filled with zeros, by the notes. -/
def zeroedBy (ns : List Note) : List Nat :=
  ns.filterMap fun note =>
    match note with
    | .patched lba result => if result = 0 then some lba else none
    | _ => none

/-- The state after a number of passes, with the sectors that were filled with zeros; nothing if the loop has ended before. -/
def passes (m : Medium) : Nat → (Nat → List PadFrame) → Scan → List Nat → Option (Scan × List Nat)
  | 0, _, s, zeroed => some (s, zeroed)
  | n + 1, failed, s, zeroed =>
    if s.SectorsRemaining = 0 then none
    else
      let r := m.round zeroed (failed 0) s
      match s.round r with
      | .inl s' => passes m n (fun i => failed (i + 1)) s' (zeroed ++ zeroedBy (notes r s s'))
      | .inr _ => none

/-- The loop of the scan ends. -/
def Ends (m : Medium) (failed : Nat → List PadFrame) (s : Scan) (zeroed : List Nat) : Prop :=
  ∃ n s' zeroed', m.passes n failed s zeroed = some (s', zeroed') ∧ s'.SectorsRemaining = 0

end Medium

variable {m : Medium} {s s' : Scan} {zeroed : List Nat} {failed : List PadFrame} {x : Nat}

/-- The sectors ahead, and whether the scan still waits for the device. -/
def measure (s : Scan) : Nat := 2 * s.SectorsRemaining + if s.blockMode = .FXIO_WAIT then 1 else 0

end HddChecker.Hdst
