import HddChecker.Fsck.Session

/-!
# The scratch bitmap of a session

`FsckOpen` sets the scratch bitmap up, and from then on the session only looks zones and words up in it: what becomes of it is a `fsckSession`.
-/

namespace HddChecker.Fsck

open HddChecker Prog Pfs

variable {σ : Type} {D : Volume σ} {m : Mount} {s s' : Check σ}

/-- The scratch bitmap has come from `c` by lookups. -/
def LookedUp (c : Scratch) (s : Check σ) : Prop :=
  ∃ lookups : List Lookup, s.scratch = lookups.foldl (fun s l => s.lookup l) c

private theorem scratch_prompting (c : Scratch) : Prompting (σ := σ) fun s => s.scratch = c where
  same h hsame := hsame.scratch.trans h
  prompt := fsckPromptUserAction_records true (P := fun _ _ scratch => scratch = c)

theorem lookedUp_counting (c : Scratch) : Counting (σ := σ) m (LookedUp c) where
  same h hsame := by
    obtain ⟨lookups, h⟩ := h
    exact ⟨lookups, hsame.scratch.trans h⟩
  prompt := fsckPromptUserAction_records true
    (P := fun _ _ scratch => ∃ lookups : List Lookup, scratch = lookups.foldl (fun s l => s.lookup l) c)
  read h _ := h
  mark h _ := h
  use h _ := h
  look l h := by
    obtain ⟨lookups, h⟩ := h
    refine ⟨lookups ++ [l], ?_⟩
    rw [List.foldl_append, ← h]
    rfl

/-- An opening that succeeds has set the scratch bitmap up for some size and looked zones up in it. -/
def SetUp (c : Scratch) (r : Except Int Mount) (s : Check σ) : Prop :=
  ∀ m, r = .ok m → ∃ total_zones, (c.pfsBitmapPartInit total_zones).1 = true ∧
    LookedUp (c.pfsBitmapPartInit total_zones).2 s

theorem wlp_refused {c : Scratch} (result : Int) : wlp (pure (.error result)) s (SetUp c) :=
  wlp_pure fun m heq => by cases heq

private theorem startRuntime_setUp (f : Filesystem) : wlp (startRuntime f) s (SetUp s.scratch) := by
  refine wlp_ofState_bind.mpr ?_
  dsimp only
  split
  · rename_i hinit
    have hlooked : LookedUp (s.scratch.pfsBitmapPartInit f.total_zones).2
        { s with scratch := (s.scratch.pfsBitmapPartInit f.total_zones).2 } := ⟨[], rfl⟩
    have hclear : Preserves (LookedUp (σ := σ) (s.scratch.pfsBitmapPartInit f.total_zones).2) clearRuntimeData :=
      preserves_ofState fun _ h => h
    have hcounting := lookedUp_counting (σ := σ) (m := f.mount) (s.scratch.pfsBitmapPartInit f.total_zones).2
    have hrest := hclear.bind fun _ =>
      (setStatus_counts hcounting.toPrompting (f := fun t => { t with
        zoneUsed := u32 (f.total_zones + 2 ^ 32 - f.zfree) }) (fun _ => rfl) (fun _ => rfl)).bind fun _ =>
      (takeHeads_counts hcounting f.log (n := f.mount)).bind fun _ => preserves_pure (Except.ok (ε := Int) f.mount)
    exact (hrest _ hlooked).mono fun r s' h m heq => ⟨f.total_zones, hinit, h⟩
  · exact wlp_refused _

private theorem FsckOpen_setUp (write auto : Bool) : wlp (FsckOpen D write auto) s (SetUp s.scratch) := by
  have hscratch := scratch_prompting (σ := σ) s.scratch
  have hstat := pfsOp_counts hscratch D.getstat { s with fsckWriteEnabled := write, fsckAutoMode := auto } rfl
  refine wlp_modify_bind.mpr (wlp_bind (hstat.mono fun mode s₁ h₁ => ?_))
  split
  · exact wlp_refused _
  split
  · exact wlp_refused _
  refine wlp_read_bind.mpr ?_
  split
  · refine wlp_bind ((pfsOp_counts hscratch _ _ h₁).mono fun blockfd s₂ h₂ => ?_)
    split
    · exact wlp_refused _
    refine wlp_bind ((CheckSuperBlock_counts hscratch _ h₂).mono fun f s₃ h₃ => ?_)
    split
    · exact wlp_refused _
    · rw [← h₃]
      exact startRuntime_setUp _
  · exact wlp_refused _

/-- What a session does to the scratch bitmap is a `fsckSession`. -/
theorem session_scratch {s₁ s₂ : Check σ} {write auto gaveUp : Bool}
    (hopen : Runs (FsckOpen D write auto) s (.ok m) s₁) (hthread : Runs (FsckThread D.toLibpfs m) s₁ gaveUp s₂) :
    ∃ total_zones lookups, s₂.scratch = fsckSession total_zones lookups s.scratch := by
  obtain ⟨total_zones, hinit, hlooked⟩ := FsckOpen_setUp write auto _ _ hopen m rfl
  obtain ⟨lookups, hlookups⟩ := FsckThread_counts (lookedUp_counting _) s₁ hlooked gaveUp s₂ hthread
  refine ⟨total_zones, lookups, ?_⟩
  rw [hlookups, fsckSession]
  split
  · rename_i heq
    rw [heq]
  · rename_i heq
    rw [heq] at hinit
    cases hinit

end HddChecker.Fsck
