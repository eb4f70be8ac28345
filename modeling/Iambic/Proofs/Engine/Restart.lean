import Iambic.Proofs.Config.Bounds
import Iambic.Proofs.Engine.Soundness

/-!
# Restarts

A configuration is accepted as a whole, or nothing of the engine changes. After a restart nothing is
left of what the engine has been through: it is one that is started with the configuration.
-/
namespace Iambic.Engine
variable {e : Engine}

/-- A reachable engine never holds a configuration that would be refused. -/
theorem Reachable.config_error? (h : e.Reachable) : e.config.error? = none := by
  induction h with
  | standard => decide
  | @start c e h =>
    obtain ⟨hc, rfl⟩ := start?_eq_ok_iff.mp h
    exact hc
  | @step e i _ ih =>
    by_cases ho : i.Ordinary
    · rwa [step_config ho]
    · rw [step_not_ordinary e ho]
      cases i with
      | configure c => exact Decidable.not_not.mp ho
      | edge _ | paddles _ | tick _ | reset => exact ih

/-- The engine goes on as one that is started with the configuration. -/
def RestartsBy (e : Engine) (i : Input) (c : Config) : Prop :=
  ∃ fresh, start? c = .ok fresh ∧ e.step i = ⟨fresh, []⟩ ∧
    ∀ inputs, e.run (i :: inputs) = fresh.run inputs

theorem restartsBy_of_not_ordinary {i : Input} (hi : ¬ i.Ordinary)
    (hc : (i.nextConfig e.config).error? = none) : e.RestartsBy i (i.nextConfig e.config) :=
  ⟨rest (i.nextConfig e.config), start?_of_valid hc, step_not_ordinary e hi,
    run_still (step_not_ordinary e hi)⟩

/-- A configuration is accepted just if every bound holds, and otherwise it is refused for the first
one that does not; of the patterns of a single those from that of zero to that of one hundred pass
as a percentage, and that of negative zero. A refused configuration leaves the engine as it was. An
accepted one, and a reset, make of it an engine that is started with the new configuration, or with
its own. No signal is given. -/
theorem restarts_leave_no_residue (h : e.Reachable) (c : Config) :
    (((e.configure c).2 = .ok () ↔ ∀ b ∈ c.bounds, b.holds) ∧
      (∀ error, (e.configure c).2 = .error error ↔ c.BreaksFirst error) ∧
      ∀ bits, (∃ u ∈ (Single.ofBits bits).units?, 0 ≤ u ∧ u ≤ 100 * (Single.unitsPerOne : Int)) ↔
        bits.toNat ≤ 0x42c80000 ∨ bits.toNat = 0x80000000) ∧
    (∀ error, (e.configure c).2 = .error error →
      (e.configure c).1 = e ∧ e.step (.configure c) = ⟨e, []⟩ ∧ start? c = .error error) ∧
    ((e.configure c).2 = .ok () →
      start? c = .ok (e.configure c).1 ∧ e.RestartsBy (.configure c) c) ∧
    start? e.config = .ok e.reset ∧ e.RestartsBy .reset e.config := by
  refine ⟨⟨?_, ?_, fun bits => ?_⟩, ?_, ?_, ?_, ?_⟩
  · rw [configure_eq_ok_iff]
    exact Config.error?_eq_none_iff
  · intro error
    rw [configure_eq_error_iff]
    exact Config.error?_eq_some_iff
  · rw [← Single.isPercent_iff]
    exact Single.isPercent_ofBits_iff
  · intro error hrefused
    have herror := e.configure_eq_error_iff.mp hrefused
    rw [step, configure_of_error e herror]
    exact ⟨rfl, rfl, start?_of_error herror⟩
  · intro haccepted
    have hc := e.configure_eq_ok_iff.mp haccepted
    rw [configure_of_valid e hc]
    exact ⟨start?_of_valid hc, restartsBy_of_not_ordinary (i := .configure c) (fun ho => ho hc) hc⟩
  · rw [reset_eq]
    exact start?_of_valid h.config_error?
  · exact restartsBy_of_not_ordinary (i := .reset) id h.config_error?

/-- In the middle of a squeezed dit with the dah requested, a window that closes at NaN is refused, a
greater speed with a window from negative zero on is taken, and the engine is reset. -/
theorem restarts_leave_no_residue_in_dit :
    let e := ((rest .standard).run [.paddles .both, .tick .zero, .tick (.clamp 30000)]).engine
    let refused : Config := { Config.standard with speed := 40, memory.window.closes := .nan }
    let taken : Config :=
      { Config.standard with speed := 40, memory.window.opens := .signedZero true }
    (e.Reachable ∧ e.phase = .sending .dit ∧ e.requested = .only .dah ∧
        (e.configure taken).2 = .ok ()) ∧
      (refused.BreaksFirst (.windowClosing .nan) ∧ (e.configure refused).1 = e ∧
        e.step (.configure refused) = ⟨e, []⟩ ∧ start? refused = .error (.windowClosing .nan)) ∧
      ((∀ b ∈ taken.bounds, b.holds) ∧ start? taken = .ok (e.configure taken).1 ∧
        e.RestartsBy (.configure taken) taken) ∧
      start? .standard = .ok e.reset ∧ e.RestartsBy .reset .standard := by
  intro e refused taken
  have hr : e.Reachable := Reachable.standard.run _
  have herror : (e.configure refused).2 = .error (.windowClosing .nan) :=
    e.configure_eq_error_iff.mpr (by decide)
  have haccepted : (e.configure taken).2 = .ok () := e.configure_eq_ok_iff.mpr (by decide)
  obtain ⟨⟨-, hfirst, -⟩, hrefused, -⟩ := restarts_leave_no_residue hr refused
  obtain ⟨⟨hbounds, -⟩, -, htaken, hreset⟩ := restarts_leave_no_residue hr taken
  exact ⟨⟨hr, by decide, by decide, haccepted⟩, ⟨(hfirst _).mp herror, hrefused _ herror⟩,
    ⟨hbounds.mp haccepted, htaken haccepted⟩, hreset⟩

end Iambic.Engine
