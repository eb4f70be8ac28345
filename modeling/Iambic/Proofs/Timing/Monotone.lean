import Iambic.Proofs.Timing.Speed

/-!
# What each setting does to the lengths

A higher speed makes no length longer, and a greater weight makes no length shorter that depends on
it. Rounding never turns this around. With valid weights the dah is no shorter than the dit, and the
gap is no longer than two dits.
-/
namespace Iambic.Config
variable {c c' : Config}

theorem nominalDit_anti (h : c.speed ≤ c'.speed) : c'.nominalDit ≤ c.nominalDit := by
  have hspeed : c.speed.toNat ≤ c'.speed.toNat := UInt32.le_iff_toNat_le.mp h
  exact Nat.div_le_div_left (by omega) (by omega)

theorem dit_mono (hn : c.nominalDit ≤ c'.nominalDit) (hw : c.weights.dit ≤ c'.weights.dit) :
    c.dit ≤ c'.dit :=
  weighted_mono hn (c'.nominalDit_le.trans (by decide)) hw (by decide) (by decide)

theorem dah_mono (hd : c.dit ≤ c'.dit) (hw : c.weights.dah ≤ c'.weights.dah) : c.dah ≤ c'.dah :=
  weighted_mono hd c'.dit_digits hw (by decide) (by decide)

theorem gap_mono (hd : c.dit ≤ c'.dit) (hw : c.weights.gap ≤ c'.weights.gap) : c.gap ≤ c'.gap :=
  weighted_mono hd c'.dit_digits hw (by decide) (by decide)

theorem parisWord_mono (hdit : c.dit ≤ c'.dit) (hdah : c.dah ≤ c'.dah) (hgap : c.gap ≤ c'.gap) :
    c.parisWord ≤ c'.parisWord := by
  unfold parisWord
  omega

/-- With a valid weight the dah is no shorter than the dit. -/
theorem Valid.dit_le_dah (h : c.Valid) : c.dit ≤ c.dah :=
  calc c.dit = weighted c.dit 10 10 := (weighted_self c.dit_digits (by decide)).symm
    _ ≤ c.dah := weighted_mono (Nat.le_refl _) c.dit_digits (UInt8.le_iff_toNat_le.mpr h.dah.1)
      (by decide) (by decide)

/-- With a valid weight the gap is no longer than two dits. -/
theorem Valid.gap_le (h : c.Valid) : c.gap ≤ 2 * c.dit := by
  have hdit := c.dit_le
  have hweight : c.weights.gap ≤ 100 := UInt8.le_iff_toNat_le.mpr (h.gap.trans (by decide))
  calc c.gap ≤ weighted c.dit 100 50 :=
        weighted_mono (Nat.le_refl _) c.dit_digits hweight (by decide) (by decide)
    _ = c.dit * 2 := weighted_mul rfl (by decide) (by decide) c.dit_digits (by omega)
    _ = 2 * c.dit := Nat.mul_comm _ _

/-- At a higher speed no length is longer, and the speed that is really sent is no lower unless a
word no longer takes time. A greater weight of the dit makes no length shorter. A greater weight of
the dah or of the gap makes it no shorter and leaves the other lengths alone. With a valid
configuration the dit is no longer than the dah, and the gap no longer than two dits. -/
theorem lengths_monotone (c : Config) :
    (∀ speed, c.speed ≤ speed →
      let faster := { c with speed := speed }
      faster.dit ≤ c.dit ∧ faster.dah ≤ c.dah ∧ faster.gap ≤ c.gap ∧
        faster.parisWord ≤ c.parisWord ∧
        (0 < faster.parisWord → c.effectiveSpeed ≤ faster.effectiveSpeed)) ∧
    (∀ weight, c.weights.dit ≤ weight →
      let heavier := { c with weights.dit := weight }
      c.dit ≤ heavier.dit ∧ c.dah ≤ heavier.dah ∧ c.gap ≤ heavier.gap) ∧
    (∀ weight, c.weights.dah ≤ weight →
      let heavier := { c with weights.dah := weight }
      c.dah ≤ heavier.dah ∧ heavier.dit = c.dit ∧ heavier.gap = c.gap) ∧
    (∀ weight, c.weights.gap ≤ weight →
      let heavier := { c with weights.gap := weight }
      c.gap ≤ heavier.gap ∧ heavier.dit = c.dit ∧ heavier.dah = c.dah) ∧
    (c.Valid → c.dit ≤ c.dah ∧ c.gap ≤ 2 * c.dit) := by
  refine ⟨?_, ?_, ?_, ?_, fun h => ⟨h.dit_le_dah, h.gap_le⟩⟩
  · intro speed h faster
    have hdit : faster.dit ≤ c.dit := dit_mono (nominalDit_anti h) (UInt8.le_refl _)
    have hdah : faster.dah ≤ c.dah := dah_mono hdit (UInt8.le_refl _)
    have hgap : faster.gap ≤ c.gap := gap_mono hdit (UInt8.le_refl _)
    have hword := parisWord_mono hdit hdah hgap
    exact ⟨hdit, hdah, hgap, hword, fun hpos => effectiveSpeed_anti hpos hword⟩
  · intro weight h heavier
    have hdit : c.dit ≤ heavier.dit := dit_mono (Nat.le_refl _) h
    exact ⟨hdit, dah_mono hdit (UInt8.le_refl _), gap_mono hdit (UInt8.le_refl _)⟩
  · intro weight h heavier
    exact ⟨dah_mono (Nat.le_refl _) h, rfl, rfl⟩
  · intro weight h heavier
    exact ⟨gap_mono (Nat.le_refl _) h, rfl, rfl⟩

/-- A dit of two microseconds, and of one at the higher speed. -/
theorem lengths_monotone_at_short_dits :
    let c : Config := { Config.standard with speed := 599999 }
    let faster : Config := { c with speed := 600001 }
    (c.speed ≤ 600001 ∧ c.weights.dit ≤ 51 ∧ c.weights.dah ≤ 255 ∧ c.weights.gap ≤ 51 ∧ c.Valid ∧
      0 < faster.parisWord) ∧
      c.effectiveSpeed ≤ faster.effectiveSpeed ∧
      c.dah ≤ ({ c with weights.dit := 51 } : Config).dah ∧
      c.dah ≤ ({ c with weights.dah := 255 } : Config).dah ∧
      c.gap ≤ ({ c with weights.gap := 51 } : Config).gap ∧ c.gap ≤ 2 * c.dit := by
  intro c faster
  have hspeed : c.speed ≤ 600001 := by decide
  have hdit : c.weights.dit ≤ 51 := by decide
  have hdah : c.weights.dah ≤ 255 := by decide
  have hgap : c.weights.gap ≤ 51 := by decide
  have hvalid : c.Valid := error?_eq_none_iff_valid.mp (by decide)
  have hword : 0 < faster.parisWord := by decide
  obtain ⟨byspeed, bydit, bydah, bygap, valid⟩ := lengths_monotone c
  exact ⟨⟨hspeed, hdit, hdah, hgap, hvalid, hword⟩, (byspeed _ hspeed).2.2.2.2 hword,
    (bydit _ hdit).2.1, (bydah _ hdah).1, (bygap _ hgap).1, (valid hvalid).2⟩

end Iambic.Config
