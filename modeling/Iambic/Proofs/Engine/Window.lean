import Iambic.Proofs.Engine.Restart
import Iambic.Proofs.Single.Percent

/-!
# The memory window in time

The progress of an element never falls while the clock goes forward, so the window is open during one
stretch of time. It is told in single precision, and at a tenth of a thousandth of a percent from
its ends the window is open or closed as the exact share of the element would have it.
-/
namespace Iambic

namespace Instant

theorem since_lt (t s : Instant) : t.since s < Single.clockEnd := by
  rw [since_eq, Single.clockEnd]
  omega

theorem since_le_since {t u : Instant} (h : t ≤ u) (s : Instant) : t.since s ≤ u.since s := by
  rw [le_iff] at h
  rw [since_eq, since_eq]
  omega

end Instant

namespace Engine
open Single
variable {e : Engine} {x : Element} {now : Instant} {t u d : Int}

/-- The share of `t` in `d` in percent, as it is computed. There is none before the element begins,
nor of an element that takes no time. -/
def percent (t d : Int) : ℚ :=
  if d ≤ 0 ∨ t < 0 then 0 else percentUnits t.toNat d.toNat / unitsPerOne

theorem percent_of_pos (ht : 0 ≤ t) (hd : 0 < d) :
    percent t d = percentUnits t.toNat d.toNat / unitsPerOne := if_neg (by omega)

theorem percent_of_not (h : ¬ (0 ≤ t ∧ 0 < d)) : percent t d = 0 := if_pos (by omega)

theorem percent_nonneg (t d : Int) : 0 ≤ percent t d := by
  rw [percent]
  split
  · exact le_rfl
  · exact div_nonneg (Nat.cast_nonneg _) cast_unitsPerOne_pos.le

theorem percent_mono (h : t ≤ u) (d : Int) : percent t d ≤ percent u d := by
  by_cases ht : 0 ≤ t ∧ 0 < d
  · rw [percent_of_pos ht.1 ht.2, percent_of_pos (by omega) ht.2,
      div_le_div_iff_of_pos_right cast_unitsPerOne_pos, Nat.cast_le]
    exact percentUnits_mono (by omega) (by omega)
  · rw [percent_of_not ht]
    exact percent_nonneg u d

theorem percent_self (hd : 0 < d) : percent d d = 100 := by
  rw [percent_of_pos hd.le hd, percentUnits_self (by omega), Nat.cast_mul,
    mul_div_cancel_right₀ _ cast_unitsPerOne_pos.ne']
  rfl

theorem percent_le_hundred (h : t ≤ d) : percent t d ≤ 100 := by
  by_cases hd : 0 < d
  · exact (percent_mono h d).trans_eq (percent_self hd)
  · rw [percent_of_not (by omega)]
    norm_num

theorem percent_error (ht : 0 ≤ t) (hd : 0 < d) (hd' : d < clockEnd) :
    100 * t / d * (1 - 5 * roundoff) ≤ percent t d ∧
      percent t d ≤ 100 * t / d * (1 + 5 * roundoff) := by
  obtain ⟨t, rfl⟩ := Int.eq_ofNat_of_zero_le ht
  obtain ⟨d, rfl⟩ := Int.eq_ofNat_of_zero_le hd.le
  have hcast : (0 : ℚ) < d := by exact_mod_cast hd
  have hU := cast_unitsPerOne_pos
  obtain ⟨hlow, hhigh⟩ := percentUnits_error (t := t) (d := d) (by omega) (by omega)
  rw [percent_of_pos ht hd]
  simp only [Int.toNat_natCast, Int.cast_natCast]
  constructor
  · rw [div_mul_eq_mul_div, div_le_div_iff₀ hcast hU]
    calc 100 * t * (1 - 5 * roundoff) * unitsPerOne
        = 100 * t * unitsPerOne * (1 - 5 * roundoff) := by ring
      _ ≤ percentUnits t d * d := hlow
  · rw [div_mul_eq_mul_div, div_le_div_iff₀ hU hcast]
    calc percentUnits t d * d ≤ 100 * t * unitsPerOne * (1 + 5 * roundoff) := hhigh
      _ = 100 * t * (1 + 5 * roundoff) * unitsPerOne := by ring

/-- The number that the progress stands for. -/
def percentAt (e : Engine) (now : Instant) : ℚ :=
  percent (now.since e.elementStart) (e.elementEnd.since e.elementStart)

/-- The microseconds since the element began. -/
def elapsed (e : Engine) (now : Instant) : Int := now.us - e.elementStart.us

/-- The microseconds that the element takes. -/
def length (e : Engine) : Int := e.elementEnd.us - e.elementStart.us

/-- The exact share of the element that has elapsed, in percent. -/
def share (e : Engine) (now : Instant) : ℚ := 100 * e.elapsed now / e.length

theorem elapsed_nonneg (h : e.elementStart ≤ now) : 0 ≤ e.elapsed now := by
  rw [Instant.le_iff] at h
  unfold elapsed
  omega

theorem length_pos (h : e.elementStart < e.elementEnd) : 0 < e.length := by
  rw [Instant.lt_iff] at h
  unfold length
  omega

theorem number?_progress (e : Engine) (now : Instant) :
    (e.progress now).number? = some (e.percentAt now) := by
  have ht := Instant.since_lt now e.elementStart
  have hd := Instant.since_lt e.elementEnd e.elementStart
  rw [progress, percentAt]
  generalize now.since e.elementStart = t at *
  generalize e.elementEnd.since e.elementStart = d at *
  by_cases h : d ≤ 0 ∨ t < 0
  · rw [if_pos h, percent, if_pos h]
    simp [zero, signedZero, number?, units?, signed]
  · rw [if_neg h, percent, if_neg h, percent_eq_finite (by omega) (by omega) (by omega)]
    rfl

theorem percentAt_mono {a b : Instant} (h : a ≤ b) : e.percentAt a ≤ e.percentAt b :=
  percent_mono (Instant.since_le_since h e.elementStart) _

theorem windowOpen_iff {s c : ℚ} (hx : e.phase = .sending x)
    (ho : e.config.memory.window.opens.number? = some s)
    (hc : e.config.memory.window.closes.number? = some c) :
    e.windowOpen now ↔ s ≤ e.percentAt now ∧ e.percentAt now ≤ c := by
  have hp := number?_progress e now
  have hkey : e.isKeyDown = true := by rw [isKeyDown, hx]; rfl
  simp only [windowOpen, hkey, Bool.true_and, Bool.and_eq_true, decide_eq_true_eq,
    le_iff_number ho hp, le_iff_number hp hc]

/-- The ends of a window are percentages, in their order. -/
theorem Reachable.window (h : e.Reachable) :
    ∃ s c, e.config.memory.window.opens.number? = some s ∧
      e.config.memory.window.closes.number? = some c ∧ 0 ≤ s ∧ s ≤ c ∧ c ≤ 100 := by
  have hv := Config.error?_eq_none_iff_valid.mp h.config_error?
  obtain ⟨s, hs, hlow, -⟩ := isPercent_iff_number.mp hv.opens
  obtain ⟨c, hc, -, hhigh⟩ := isPercent_iff_number.mp hv.closes
  exact ⟨s, c, hs, hc, hlow, (le_iff_number hs hc).mp hv.ordered, hhigh⟩

/-- An element lasts no longer than the slowest speed and the greatest weights make it. -/
theorem Sends.since_end (h : e.Sends x) :
    e.elementEnd.since e.elementStart = e.length ∧ e.length < 0x10000000 := by
  have hlt := e.config.duration_lt x
  have hfirst := e.elementStart.lt_end
  have hend := Instant.us_later e.elementStart (e.config.duration x)
  rw [← h.deadline] at hend
  rw [Instant.since_eq, length]
  omega

theorem Sends.percentAt_eq (h : e.Sends x) (now : Instant) :
    e.percentAt now = percent (now.since e.elementStart) e.length := by
  rw [percentAt, h.since_end.1]

/-- The elapsed time is exact, or it is cut where the clock's range ends, far after the element. -/
theorem Sends.since_start (h : e.Sends x) (hnow : e.elementStart ≤ now) :
    now.since e.elementStart = e.elapsed now ∨
      2 * e.length ≤ now.since e.elementStart ∧ now.since e.elementStart ≤ e.elapsed now := by
  obtain ⟨-, hlength⟩ := h.since_end
  have hfirst := now.first_le
  rw [Instant.le_iff] at hnow
  rw [Instant.since_eq, elapsed]
  omega

/-- The exact share is that of the time from which the progress is computed, or it and that share are
beyond two hundred percent. -/
theorem Sends.share_eq (h : e.Sends x) (hnow : e.elementStart ≤ now)
    (hpos : e.elementStart < e.elementEnd) :
    ∃ t : Int, e.percentAt now = percent t e.length ∧ 0 ≤ t ∧
      (e.share now = 100 * t / e.length ∨
        200 ≤ (100 * t / e.length : ℚ) ∧ 200 ≤ e.share now) := by
  have hlength := length_pos hpos
  have hcast : (0 : ℚ) < e.length := by exact_mod_cast hlength
  have helapsed := elapsed_nonneg hnow
  refine ⟨now.since e.elementStart, h.percentAt_eq now, ?_, ?_⟩
  · obtain hexact | ⟨hfar, -⟩ := h.since_start hnow <;> omega
  · obtain hexact | ⟨hfar, hcut⟩ := h.since_start hnow
    · left
      rw [share, hexact]
    · right
      rw [share, le_div_iff₀ hcast, le_div_iff₀ hcast]
      constructor
      · exact_mod_cast (by omega : 200 * e.length ≤ 100 * now.since e.elementStart)
      · exact_mod_cast (by omega : 200 * e.length ≤ 100 * e.elapsed now)

/-- What is computed tells a share from a percentage that is a ten thousandth away. -/
theorem Sends.percentAt_close (h : e.Sends x) (hnow : e.elementStart ≤ now)
    (hpos : e.elementStart < e.elementEnd) {p : ℚ} (hp : p ≤ 100) :
    (p + 1 / 10000 ≤ e.share now → p < e.percentAt now) ∧
      (e.share now ≤ p - 1 / 10000 → e.percentAt now < p) := by
  obtain ⟨t, heq, ht, hshare⟩ := h.share_eq hnow hpos
  have hend : e.length < clockEnd := h.since_end.2.trans (by decide)
  obtain ⟨hlow, hhigh⟩ := percent_error ht (length_pos hpos) hend
  rw [heq]
  rw [roundoff] at hlow hhigh
  constructor
  · intro hafter
    obtain hexact | ⟨hfar, -⟩ := hshare
    · linarith
    · linarith
  · intro hbefore
    obtain hexact | ⟨-, hfar⟩ := hshare
    · linarith
    · linarith

/-- While an element is sent its progress does not fall as the clock goes on, so that the window is
open from its first opening to its last closing. A window over the whole element is open at every time
up to the end of the element. Any other one is open where the exact share of the element lies inside
it by a ten thousandth of a percent, and closed where it lies outside by as much. -/
theorem window_is_interval (h : e.Reachable) (hx : e.phase = .sending x) :
    (∀ a b, a ≤ b → e.progress a ≤ e.progress b) ∧
    (∀ a b now, a ≤ now → now ≤ b → e.windowOpen a → e.windowOpen b → e.windowOpen now) ∧
    ∃ s c, e.config.memory.window.opens.number? = some s ∧
      e.config.memory.window.closes.number? = some c ∧
      (s = 0 → c = 100 → ∀ now, now ≤ e.elementEnd → e.windowOpen now) ∧
      ∀ now, e.elementStart ≤ now → e.elementStart < e.elementEnd →
        (s + 1 / 10000 ≤ e.share now → e.share now ≤ c - 1 / 10000 → e.windowOpen now) ∧
        (e.share now ≤ s - 1 / 10000 ∨ c + 1 / 10000 ≤ e.share now → ¬ e.windowOpen now) := by
  have hsends := h.sound.sending x hx
  obtain ⟨s, c, hs, hc, -, hsc, hhigh⟩ := h.window
  have hopen (now : Instant) : e.windowOpen now ↔ s ≤ e.percentAt now ∧ e.percentAt now ≤ c :=
    windowOpen_iff hx hs hc
  refine ⟨?_, ?_, s, c, hs, hc, ?_, ?_⟩
  · intro a b hab
    exact (le_iff_number (number?_progress e a) (number?_progress e b)).mpr (percentAt_mono hab)
  · intro a b now ha hb hopena hopenb
    rw [hopen] at hopena hopenb ⊢
    exact ⟨hopena.1.trans (percentAt_mono ha), (percentAt_mono hb).trans hopenb.2⟩
  · rintro rfl rfl now hnow
    rw [hopen]
    exact ⟨percent_nonneg _ _, percent_le_hundred (Instant.since_le_since hnow _)⟩
  · intro now hnow hpos
    rw [hopen]
    have hfirst := hsends.percentAt_close hnow hpos (hsc.trans hhigh)
    have hlast := hsends.percentAt_close hnow hpos hhigh
    constructor
    · intro hfrom hto
      exact ⟨(hfirst.1 hfrom).le, (hlast.2 hto).le⟩
    · rintro (hbefore | hafter) ⟨hin, hout⟩
      · exact absurd hin (not_le.mpr (hfirst.2 hbefore))
      · exact absurd hout (not_le.mpr (hlast.1 hafter))

/-- In a dit of sixty milliseconds, a window from fifty to seventy-five percent. -/
theorem window_is_interval_of_dit :
    let c : Config :=
      { Config.standard with memory := ⟨⟨.ofNat 50, .ofNat 75⟩, .both, .snapshot⟩ }
    let e := ((rest c).run [.paddles .both, .tick .zero]).engine
    (e.Reachable ∧ e.phase = .sending .dit) ∧
      (∀ now, .clamp 30000 ≤ now → now ≤ .clamp 45000 → e.windowOpen now) ∧
      ¬ e.windowOpen (.clamp 29999) ∧ ¬ e.windowOpen (.clamp 45001) := by
  intro c e
  have hr : e.Reachable := (Reachable.start (start?_of_valid (c := c) (by decide))).run _
  have hx : e.phase = .sending .dit := by decide
  obtain ⟨-, hbetween, s, t, hs, ht, -, hclear⟩ := window_is_interval hr hx
  obtain rfl : (50 : ℚ) = s := Option.some.inj ((number?_ofNat (by decide)).symm.trans hs)
  obtain rfl : (75 : ℚ) = t := Option.some.inj ((number?_ofNat (by decide)).symm.trans ht)
  have hstart : e.elementStart = .clamp 0 := by decide
  have hend : e.elementEnd = .clamp 60000 := by decide
  have hbefore := (hclear (.clamp 29999) (by decide) (by decide)).2
  have hafter := (hclear (.clamp 45001) (by decide) (by decide)).2
  rw [share, elapsed, length, hstart, hend] at hbefore hafter
  refine ⟨⟨hr, hx⟩, fun now ha hb => hbetween _ _ now ha hb (by decide) (by decide), ?_, ?_⟩
  · exact hbefore (.inl (by norm_num [Instant.clamp]))
  · exact hafter (.inr (by norm_num [Instant.clamp]))

end Engine
end Iambic
