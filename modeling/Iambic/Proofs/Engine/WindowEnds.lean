import Iambic.Proofs.Engine.Window

/-!
# The ends of the memory window

A window between whole percentages is meant to include its ends. Seven of the percentages come out
beside themselves when the share of an element is computed, and at such an end the window is closed.
Elsewhere the window is open just where the exact share of the element lies in it, as far as the
roundings can tell the two apart.
-/
namespace Iambic.Engine
open Single
variable {e : Engine} {x : Element} {now : Instant} {p s c : ℕ} {t d : Int}

/-- The share of `t` in `d` is `p` percent sharp, in numbers of at most 24 digits, or it is further off
than the roundings reach. -/
def Discernible (p t d : Int) : Prop :=
  100 * t = p * d ∧ d ≤ 0x1000000 ∨ 6 * p * d < 0x1000000 * |100 * t - p * d|

/-- Of an element of up to 27 ms, and of one of up to 2.7 s that lasts for a multiple of 100 µs, every
microsecond can be told from every percentage. -/
theorem discernible_of_short (hp : p ≤ 100) (hd : 0 < d)
    (h : d ≤ 27962 ∨ 100 ∣ d ∧ d ≤ 2796202) : Discernible p t d := by
  have hpd : p * d ≤ 100 * d := Int.mul_le_mul_of_nonneg_right (by omega) hd.le
  by_cases hsharp : 100 * t = p * d
  · exact .inl ⟨hsharp, by omega⟩
  · right
    have hoff : 1 ≤ |100 * t - p * d| := Int.one_le_abs (sub_ne_zero.mpr hsharp)
    obtain hshort | ⟨⟨k, rfl⟩, hlong⟩ := h
    · linarith
    · -- The difference is a multiple of one hundred.
      have hmul : 100 * t - p * (100 * k) = 100 * (t - p * k) := by ring
      have hoff : 1 ≤ |t - p * k| := by
        apply Int.one_le_abs
        intro hzero
        rw [hzero, mul_zero] at hmul
        exact hsharp (sub_eq_zero.mp hmul)
      rw [hmul, abs_mul]
      norm_num
      linarith

/-- Below a percentage that can be told from it the share comes out below, above it above. -/
theorem Discernible.percent_lt (h : Discernible p t d) (ht : 0 ≤ t) (hd : 0 < d)
    (hd' : d < clockEnd) :
    (100 * t < p * d → percent t d < p) ∧ (p * d < 100 * t → p < percent t d) := by
  obtain ⟨hlow, hhigh⟩ := percent_error ht hd hd'
  have hcast : (0 : ℚ) < d := by exact_mod_cast hd
  rw [roundoff] at hlow hhigh
  rw [div_mul_eq_mul_div, div_le_iff₀ hcast] at hlow
  rw [div_mul_eq_mul_div, le_div_iff₀ hcast] at hhigh
  constructor <;> intro hside <;> obtain ⟨hsharp, -⟩ | hoff := h
  · exact absurd hsharp hside.ne
  · rw [abs_of_neg (by omega)] at hoff
    have hoff : (6 * p * d : ℚ) < 0x1000000 * -(100 * t - p * d) := by exact_mod_cast hoff
    have hpd : (0 : ℚ) ≤ p * d := by positivity
    apply lt_of_mul_lt_mul_right _ hcast.le
    linarith
  · exact absurd hsharp.symm hside.ne
  · rw [abs_of_pos (by omega)] at hoff
    have hoff : (6 * p * d : ℚ) < 0x1000000 * (100 * t - p * d) := by exact_mod_cast hoff
    have hpd : (0 : ℚ) ≤ p * d := by positivity
    apply lt_of_mul_lt_mul_right _ hcast.le
    linarith

/-- A sharp percentage comes out as itself, unless it is one of the rounded ones. -/
theorem percent_of_sharp (hp : p ≤ 100) (hd : 0 < d) (hd' : d ≤ 0x1000000)
    (h : 100 * t = p * d) :
    (p ≤ percent t d ↔ p ∉ roundedDown) ∧ (percent t d ≤ p ↔ p ∉ roundedUp) := by
  have hpd : 0 ≤ p * d := by positivity
  obtain ⟨t, rfl⟩ := Int.eq_ofNat_of_zero_le (show 0 ≤ t by omega)
  obtain ⟨d, rfl⟩ := Int.eq_ofNat_of_zero_le hd.le
  have hsharp : percentUnits t d = percentUnits p 100 :=
    percentUnits_of_sharp hp (by omega) (by omega) (by exact_mod_cast h)
  obtain ⟨hdown, hup⟩ := percentUnits_hundred p hp
  rw [percent_of_pos (by omega) hd, Int.toNat_natCast, Int.toNat_natCast, hsharp, ← hdown, ← hup,
    le_div_iff₀ cast_unitsPerOne_pos, div_le_iff₀ cast_unitsPerOne_pos]
  exact ⟨by exact_mod_cast Iff.rfl, by exact_mod_cast Iff.rfl⟩

theorem Discernible.le_percent (h : Discernible p t d) (hp : p ≤ 100) (ht : 0 ≤ t) (hd : 0 < d)
    (hd' : d < clockEnd) :
    (p ≤ percent t d ↔ p * d ≤ 100 * t ∧ ¬ (100 * t = p * d ∧ p ∈ roundedDown)) ∧
      (percent t d ≤ p ↔ 100 * t ≤ p * d ∧ ¬ (100 * t = p * d ∧ p ∈ roundedUp)) := by
  obtain ⟨hbelow, habove⟩ := h.percent_lt ht hd hd'
  obtain hlt | hsharp | hgt := lt_trichotomy (100 * t) (p * d)
  · have hlt' := hbelow hlt
    exact ⟨by simp [hlt'.not_ge, hlt.not_ge], by simp [hlt'.le, hlt.le, hlt.ne]⟩
  · obtain ⟨-, hshort⟩ | hoff := h
    · obtain ⟨hdown, hup⟩ := percent_of_sharp hp hd hshort hsharp
      exact ⟨by simp [hdown, hsharp], by simp [hup, hsharp]⟩
    · have hpd : 0 ≤ p * d := by positivity
      rw [hsharp, sub_self, abs_zero, mul_zero, mul_assoc] at hoff
      omega
  · have hgt' := habove hgt
    exact ⟨by simp [hgt'.le, hgt.le, hgt.ne'], by simp [hgt'.not_ge, hgt.not_ge]⟩

/-- More than an element of at most 24 digits is more than one hundred percent of it. -/
theorem hundred_lt_percent (hd : 0 < d) (hd' : d < 0x1000000) (h : d < t) : 100 < percent t d := by
  rw [percent_of_pos (hd.trans h).le hd, lt_div_iff₀ cast_unitsPerOne_pos]
  exact_mod_cast lt_percentUnits (by omega) (by omega) (by omega : d.toNat < t.toNat)

theorem Sends.le_percentAt (h : e.Sends x) (hp : p ≤ 100) (hnow : e.elementStart ≤ now)
    (hpos : e.elementStart < e.elementEnd) (hclear : Discernible p (e.elapsed now) e.length) :
    (p ≤ e.percentAt now ↔ p * e.length ≤ 100 * e.elapsed now ∧
        ¬ (100 * e.elapsed now = p * e.length ∧ p ∈ roundedDown)) ∧
      (e.percentAt now ≤ p ↔ 100 * e.elapsed now ≤ p * e.length ∧
        ¬ (100 * e.elapsed now = p * e.length ∧ p ∈ roundedUp)) := by
  have hlength := length_pos hpos
  have hend : e.length < clockEnd := h.since_end.2.trans (by decide)
  have helapsed := elapsed_nonneg hnow
  rw [h.percentAt_eq]
  obtain hexact | ⟨hfar, hcut⟩ := h.since_start hnow
  · rw [hexact]
    exact hclear.le_percent hp helapsed hlength hend
  · -- Where the clock's range ends both times are far beyond every percentage.
    have hpd : p * e.length ≤ 100 * e.length :=
      Int.mul_le_mul_of_nonneg_right (by omega) hlength.le
    have hclear : Discernible p (now.since e.elementStart) e.length := by
      right
      rw [abs_of_pos (by omega), mul_assoc]
      omega
    have hgt := (hclear.percent_lt (by omega) hlength hend).2 (by omega)
    have hgt' : p * e.length < 100 * e.elapsed now := by omega
    exact ⟨by simp [hgt.le, hgt'.le, hgt'.ne'], by simp [hgt.not_ge, hgt'.not_ge]⟩

theorem Sends.hundred_lt_percentAt (h : e.Sends x) (hpos : e.elementStart < e.elementEnd)
    (hlength : e.length < 0x1000000) (hafter : e.elementEnd < now) : 100 < e.percentAt now := by
  have hd := length_pos hpos
  have hlater : e.length < e.elapsed now := by
    rw [Instant.lt_iff] at hafter
    unfold length elapsed
    omega
  rw [h.percentAt_eq]
  apply hundred_lt_percent hd hlength
  obtain hexact | ⟨hfar, -⟩ := h.since_start (Int.le_of_lt (Int.lt_trans hpos hafter)) <;> omega

/-- A window between whole percentages is open just where the exact share of the element lies in it,
ends included, but for the percentages that come out beside themselves: sharp at 53 and at 59 percent
a window that begins there is not open yet, and sharp at 15, 27, 30, 54 and 60 percent a window that
ends there is closed already. This holds wherever the share can be told from both ends. After an
element of at most 24 digits no window is open. -/
theorem windowOpen_iff_sharp (h : e.Reachable) (hx : e.phase = .sending x)
    (hs : e.config.memory.window.opens.number? = some (s : ℚ))
    (hc : e.config.memory.window.closes.number? = some (c : ℚ))
    (hnow : e.elementStart ≤ now) (hpos : e.elementStart < e.elementEnd) :
    (Discernible s (e.elapsed now) e.length → Discernible c (e.elapsed now) e.length →
      (e.windowOpen now ↔
        (s * e.length ≤ 100 * e.elapsed now ∧ 100 * e.elapsed now ≤ c * e.length) ∧
          ¬ (100 * e.elapsed now = s * e.length ∧ s ∈ roundedDown) ∧
          ¬ (100 * e.elapsed now = c * e.length ∧ c ∈ roundedUp))) ∧
    (e.length < 0x1000000 → e.elementEnd < now → ¬ e.windowOpen now) := by
  have hsends := h.sound.sending x hx
  obtain ⟨a, b, ha, hb, -, hab, hhigh⟩ := h.window
  obtain rfl : (s : ℚ) = a := Option.some.inj (hs.symm.trans ha)
  obtain rfl : (c : ℚ) = b := Option.some.inj (hc.symm.trans hb)
  rw [windowOpen_iff hx hs hc]
  constructor
  · intro hopens hcloses
    rw [(hsends.le_percentAt (by exact_mod_cast hab.trans hhigh) hnow hpos hopens).1,
      (hsends.le_percentAt (by exact_mod_cast hhigh) hnow hpos hcloses).2]
    tauto
  · rintro hlength hafter ⟨-, hin⟩
    exact absurd (hin.trans hhigh) (hsends.hundred_lt_percentAt hpos hlength hafter).not_ge

/-- In a dit of sixty milliseconds, a window from fifty-three percent on. -/
theorem windowOpen_iff_sharp_in_dit :
    let c : Config :=
      { Config.standard with memory := ⟨⟨.ofNat 53, .ofNat 100⟩, .both, .snapshot⟩ }
    let e := ((rest c).run [.paddles ⟨true, false⟩, .tick .zero]).engine
    (e.Reachable ∧ e.phase = .sending .dit ∧ e.elementStart < e.elementEnd) ∧
      ¬ e.windowOpen (.clamp 31800) ∧ e.windowOpen (.clamp 31801) ∧ e.windowOpen (.clamp 60000) ∧
      ¬ e.windowOpen (.clamp 60001) := by
  intro c e
  have hr : e.Reachable := (Reachable.start (start?_of_valid (c := c) (by decide))).run _
  have hx : e.phase = .sending .dit := by decide
  have hpos : e.elementStart < e.elementEnd := by decide
  have hstart : e.elementStart = .clamp 0 := by decide
  have hend : e.elementEnd = .clamp 60000 := by decide
  have hlength : e.length = 60000 := by
    rw [length, hstart, hend]
    decide
  have hclear (p : ℕ) (hp : p ≤ 100) (t : Int) : Discernible p t e.length :=
    discernible_of_short hp (by omega) (by omega)
  have hends (now : Instant) (hnow : e.elementStart ≤ now) :=
    windowOpen_iff_sharp hr hx (number?_ofNat (n := 53) (by decide))
      (number?_ofNat (n := 100) (by decide)) hnow hpos
  have hopen (now : Instant) (hnow : e.elementStart ≤ now) :=
    (hends now hnow).1 (hclear _ (by decide) _) (hclear _ (by decide) _)
  refine ⟨⟨hr, hx, hpos⟩, ?_, ?_, ?_, ?_⟩
  · rw [hopen _ (by decide), hlength, elapsed, hstart]
    decide
  · rw [hopen _ (by decide), hlength, elapsed, hstart]
    decide
  · rw [hopen _ (by decide), hlength, elapsed, hstart]
    decide
  · exact (hends _ (by decide)).2 (by omega) (by rw [hend]; decide)

/-- A dah that is closed fifty-three percent into a dit, where the window begins, is not stored. -/
theorem window_misses_its_first_end :
    let c : Config :=
      { Config.standard with memory := ⟨⟨.ofNat 53, .ofNat 100⟩, .both, .snapshot⟩ }
    let e := ((rest c).run
      [.paddles ⟨true, false⟩, .tick .zero, .paddles ⟨false, true⟩]).engine
    (e.Reachable ∧ e.phase = .sending .dit ∧ e.length = 60000 ∧
      53 * e.length ≤ 100 * e.elapsed (.clamp 31800) ∧
      100 * e.elapsed (.clamp 31800) ≤ 100 * e.length) ∧
    e.windowOpen (.clamp 31800) = false ∧
    (e.tick (.clamp 31800)).engine.requested.has .dah = false := by
  intro c e
  have hr : e.Reachable := (Reachable.start (start?_of_valid (c := c) (by decide))).run _
  exact ⟨⟨hr, by decide, by decide, by decide, by decide⟩, by decide, by decide⟩

end Iambic.Engine
