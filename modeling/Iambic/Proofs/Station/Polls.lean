import Iambic.Proofs.Channel.Conservation
import Iambic.Station.Direct

/-!
# Nothing is lost between the interrupt and the engine

It makes no difference to the engine whether the edges go through the channel. A station answers
every push and every poll as the bare engine does that is told each taken edge directly, also when
pushes interrupt a poll: the state of the bare engine is read off that of the station, and each step
of the one is a step of the other.
-/
namespace Iambic

namespace Station

theorem push_direct (s : Station) (edge : Edge) :
    s.direct.push s.channel.places edge = ((s.push edge).1.direct, (s.push edge).2) := by
  by_cases h : s.channel.pending.length < s.channel.places
  · have htold : s.direct.push s.channel.places edge =
        (⟨s.direct.engine.onEdge edge, s.direct.waiting + 1⟩, true) := if_pos h
    rw [htold, push, Channel.push_of_lt h]
    simp [direct]
  · have hrefused : s.direct.push s.channel.places edge = (s.direct, false) := if_neg h
    rw [hrefused, push, Channel.push_of_le (Nat.not_lt.mp h)]
    rfl

theorem serve_direct (s : Station) (task : Task) :
    s.direct.serve s.channel.places task = ((s.serve task).1.direct, (s.serve task).2) := by
  cases task with
  | push edge =>
    rw [Direct.serve, push_direct]
    rfl
  | poll now =>
    rw [serve, poll, drain_eq]
    rfl

theorem places_serve (s : Station) (task : Task) :
    (s.serve task).1.channel.places = s.channel.places := by
  cases task with
  | push edge => exact s.channel.places_push edge
  | poll now =>
    rw [serve, poll, drain_eq]
    rfl

theorem serveAll_direct (s : Station) (tasks : List Task) :
    s.direct.serveAll s.channel.places tasks =
      ((s.serveAll tasks).1.direct, (s.serveAll tasks).2) := by
  induction tasks generalizing s with
  | nil => rfl
  | cons task tasks ih =>
    rw [Direct.serveAll, serve_direct, ← s.places_serve task, ih]
    rfl

/-- A poll leaves no edge waiting, so afterwards the engine is the bare one. -/
theorem engine_poll (s : Station) (now : Instant) :
    (s.poll now).1.engine = (s.direct.engine.tick now).engine := by
  rw [poll, drain_eq]
  rfl

end Station

namespace Polling
variable {p : Polling} {n : Nat} {log : List Event}

theorem answer_ofPush (edge : Edge) (taken : Bool) :
    (Event.channel (.ofPush edge taken)).answer? = some (.pushed taken) := by
  cases taken <;> rfl

/-- What a move can do to the station. -/
inductive Moved (p : Polling) (m : Move) : Prop where
  | pushes (edge : Edge) (pushed : m.pushed? = some edge)
      (eq : p.move m = (⟨(p.station.push edge).1, p.stage⟩,
        [.channel (.ofPush edge (p.station.push edge).2)]))
  /-- A poll begins or finds the channel empty, or there is nothing to do. -/
  | waits (stage : Stage) (pushed : m.pushed? = none) (eq : p.move m = ({ p with stage := stage }, []))
  | takes (edge : Edge) (channel : Channel) (stage : Stage) (pushed : m.pushed? = none)
      (pop : p.station.channel.pop = some (edge, channel))
      (eq : p.move m = (⟨⟨p.station.engine.onEdge edge, channel⟩, stage⟩, [.channel (.popped edge)]))
  | closes (engine : Engine) (poll : Poll) (pushed : m.pushed? = none)
      (eq : p.move m = (⟨{ p.station with engine := engine }, .resting⟩, [.polled poll]))

theorem moved (p : Polling) (m : Move) : p.Moved m := by
  obtain ⟨s, stage⟩ := p
  cases m with
  | push edge => exact .pushes edge rfl rfl
  | poll now =>
    cases stage with
    | resting => exact .waits (.draining now 0) rfl rfl
    | draining _ _ | closing _ _ => exact .waits _ rfl rfl
  | go =>
    cases stage with
    | resting => exact .waits .resting rfl rfl
    | closing now applied =>
      exact .closes (s.engine.tick now).engine ⟨applied, (s.engine.tick now).signals⟩ rfl rfl
    | draining now applied =>
      cases hp : s.channel.pop with
      | none => exact .waits (.closing now applied) rfl (by simp only [move, take, hp])
      | some popped =>
        exact .takes popped.1 popped.2 (.draining now (applied + 1)) rfl hp
          (by simp only [move, take, hp])

/-- Each move of the station is one of the bare engine, and is answered in the same way. -/
theorem move_direct (p : Polling) (m : Move) :
    p.direct.move p.station.channel.places m =
      ((p.move m).1.direct, (p.move m).2.filterMap Event.answer?) := by
  obtain ⟨s, stage⟩ := p
  cases m with
  | push edge =>
    have hanswer : ((⟨s, stage⟩ : Polling).move (.push edge)).2.filterMap Event.answer? =
        [.pushed (s.push edge).2] :=
      List.filterMap_cons_some (answer_ofPush edge (s.push edge).2)
    rw [hanswer]
    cases stage with
    | resting | draining now applied =>
      simp only [direct, Direct.Polling.move, s.push_direct edge]
      rfl
    | closing now applied =>
      let ticked : Station := { s with engine := (s.engine.tick now).engine }
      have hpush := ticked.push_direct edge
      simp only [direct, Direct.Polling.move]
      rw [hpush]
      rfl
  | poll now => cases stage <;> rfl
  | go =>
    cases stage with
    | resting | closing now applied => rfl
    | draining now applied =>
      obtain ⟨e, size, pending, dropped⟩ := s
      cases pending <;> rfl

theorem places_move (p : Polling) (m : Move) :
    (p.move m).1.station.channel.places = p.station.channel.places := by
  cases p.moved m with
  | pushes edge _ eq =>
    rw [eq]
    exact p.station.channel.places_push edge
  | waits _ _ eq | closes _ _ _ eq => rw [eq]
  | takes _ _ _ _ pop eq =>
    rw [eq]
    exact Channel.places_of_pop pop

theorem run_direct (p : Polling) (moves : List Move) :
    p.direct.run p.station.channel.places moves =
      ((p.run moves).1.direct, (p.run moves).2.filterMap Event.answer?) := by
  induction moves generalizing p with
  | nil => rfl
  | cons m moves ih =>
    rw [Direct.Polling.run, move_direct, ← p.places_move m, ih, run, List.filterMap_append]

/-! ## The channel during polls -/

theorem conserves_move (h : Channel.Conserves n p.station.channel (log.filterMap Event.channel?))
    (m : Move) : Channel.Conserves n (p.move m).1.station.channel
      ((log ++ (p.move m).2).filterMap Event.channel?) := by
  rw [List.filterMap_append]
  cases p.moved m with
  | pushes edge _ eq =>
    rw [eq]
    exact h.act_push edge
  | waits _ _ eq | closes _ _ _ eq =>
    rw [eq]
    simpa [List.filterMap_cons] using h
  | takes _ _ _ _ pop eq =>
    rw [eq]
    exact h.pop pop

theorem conserves_run (h : Channel.Conserves n p.station.channel (log.filterMap Event.channel?))
    (moves : List Move) : Channel.Conserves n (p.run moves).1.station.channel
      ((log ++ (p.run moves).2).filterMap Event.channel?) := by
  induction moves generalizing p log with
  | nil => simpa [run] using h
  | cons m moves ih =>
    rw [run, ← List.append_assoc]
    exact ih (conserves_move h m)

theorem pushed_move (p : Polling) (m : Move) :
    (p.move m).2.filterMap Event.pushed? = m.pushed?.toList := by
  cases p.moved m with
  | pushes edge pushed eq =>
    rw [eq, pushed]
    exact List.filterMap_cons_some (Channel.pushed_ofPush edge _)
  | waits _ pushed eq | takes _ _ _ pushed _ eq | closes _ _ pushed eq =>
    rw [eq, pushed]
    rfl

/-- Each push of the script is taken or refused, in its turn. -/
theorem pushed_run (p : Polling) (moves : List Move) :
    (p.run moves).2.filterMap Event.pushed? = moves.filterMap Move.pushed? := by
  induction moves generalizing p with
  | nil => rfl
  | cons m moves ih =>
    rw [run, List.filterMap_append, ih, pushed_move]
    cases m <;> rfl

/-! ## Polls that nothing interrupts -/

/-- A poll that begins to drain, and that nothing interrupts from then on. -/
theorem run_draining (e : Engine) (channel : Channel) (now : Instant) (applied : Nat) :
    let drained := channel.pending.foldl Engine.onEdge e
    run ⟨⟨e, channel⟩, .draining now applied⟩ (List.replicate (channel.pending.length + 2) .go) =
      (⟨⟨(drained.tick now).engine, { channel with pending := [] }⟩, .resting⟩,
        channel.pending.map (fun edge => .channel (.popped edge)) ++
          [.polled ⟨applied + channel.pending.length, (drained.tick now).signals⟩]) := by
  obtain ⟨size, pending, dropped⟩ := channel
  induction pending generalizing e applied with
  | nil => rfl
  | cons edge pending ih =>
    have hcount : applied + (pending.length + 1) = applied + 1 + pending.length := by omega
    simp only [List.length_cons, List.map_cons, List.foldl_cons, hcount]
    rw [List.replicate_succ, run]
    simp only [Polling.move, Polling.take, Channel.pop]
    rw [ih (e.onEdge edge) (applied + 1)]
    rfl

/-- A poll that is cut into its steps is the station's poll, unless it is interrupted. -/
theorem run_moves (s : Station) (task : Station.Task) :
    (run ⟨s, .resting⟩ (moves s task)).1 = ⟨(s.serve task).1, .resting⟩ ∧
      (run ⟨s, .resting⟩ (moves s task)).2.filterMap Event.answer? = [(s.serve task).2] := by
  cases task with
  | push edge => exact ⟨rfl, List.filterMap_cons_some (answer_ofPush edge (s.push edge).2)⟩
  | poll now =>
    have hdrain := run_draining s.engine s.channel now 0
    rw [moves, run]
    simp only [Polling.move]
    rw [hdrain, Station.serve, Station.poll, Station.drain_eq, Nat.zero_add]
    refine ⟨rfl, ?_⟩
    rw [List.nil_append, List.filterMap_append, List.filterMap_map]
    simp

/-- However pushes and pops alternate, the channel keeps the order of the edges, refuses one when
all places are taken and only then, and counts it; the script tells which ones find a place. The
same holds when the pops are those of polls that pushes may interrupt anywhere. Every push and every
poll is then answered as by the bare engine, which is told each taken edge directly and ticked by
each poll, and the two engines differ by the waiting edges only. A poll that nothing interrupts is
the station's poll. So the station, too, answers every push and every poll as the bare engine does,
and after a poll the engines are the same. -/
theorem event_path_faithful (c : Config) (n : Nat) :
    (∀ acts, let after := (Channel.empty n).run acts
      Channel.Conserves n after.1 after.2 ∧
        after.2.filterMap Channel.Event.pushed? = acts.filterMap Channel.Act.pushed? ∧
        after.2.filterMap Channel.Event.taken? = Channel.accepted (n - 1) 0 acts) ∧
    (∀ moves, let after := (rest c n).run moves
      let direct := (Direct.Polling.rest c).run (n - 1) moves
      Channel.Conserves n after.1.station.channel (after.2.filterMap Event.channel?) ∧
        after.2.filterMap Event.pushed? = moves.filterMap Move.pushed? ∧
        after.2.filterMap Event.answer? = direct.2 ∧ after.1.direct = direct.1) ∧
    (∀ s task, let cut := run ⟨s, .resting⟩ (moves s task)
      cut.1 = ⟨(s.serve task).1, .resting⟩ ∧
        cut.2.filterMap Event.answer? = [(s.serve task).2]) ∧
    ∀ tasks, let after := (rest c n).station.serveAll tasks
      let direct := (Direct.rest c).serveAll (n - 1) tasks
      after.2 = direct.2 ∧ after.1.direct = direct.1 ∧
        ∀ now, (after.1.poll now).1.engine = (direct.1.engine.tick now).engine := by
  refine ⟨fun acts => ?_, fun moves => ?_, run_moves, fun tasks => ?_⟩
  · exact ⟨(Channel.empty_conserves n).run acts, Channel.pushed_run _ acts,
      Channel.taken_run _ acts⟩
  · have hdirect : (Direct.Polling.rest c).run (n - 1) moves =
        (((rest c n).run moves).1.direct, ((rest c n).run moves).2.filterMap Event.answer?) :=
      run_direct (rest c n) moves
    have hempty : Channel.Conserves n (rest c n).station.channel
        (([] : List Event).filterMap Event.channel?) := Channel.empty_conserves n
    rw [hdirect]
    exact ⟨conserves_run hempty moves, pushed_run _ moves, rfl, rfl⟩
  · have hdirect : (Direct.rest c).serveAll (n - 1) tasks =
        (((rest c n).station.serveAll tasks).1.direct, ((rest c n).station.serveAll tasks).2) :=
      (rest c n).station.serveAll_direct tasks
    rw [hdirect]
    exact ⟨rfl, rfl, Station.engine_poll _⟩

/-- Two edges wait where two can wait, so a third one is refused. Once the poll has taken one of them
there is room again, and the edge that is pushed then is taken by the same poll. If nothing
interrupts the poll, this edge waits for the next one. -/
theorem event_path_faithful_of_full_channel :
    let edge (x : Element) (closed : Bool) : Edge := ⟨.paddle x, closed, .zero⟩
    let moves : List Move := [.push (edge .dit true), .push (edge .dah true),
      .push (edge .dit false), .poll .zero, .go, .push (edge .dah false), .go, .go, .go, .go]
    let tasks : List Station.Task := [.push (edge .dit true), .push (edge .dah true),
      .push (edge .dit false), .poll .zero, .push (edge .dah false), .poll (.clamp 30000)]
    let cut := (rest .standard 3).run moves
    let served := (rest .standard 3).station.serveAll tasks
    (cut.2.filterMap Event.channel? = [.taken (edge .dit true), .taken (edge .dah true),
        .refused (edge .dit false), .popped (edge .dit true), .taken (edge .dah false),
        .popped (edge .dah true), .popped (edge .dah false)] ∧
      cut.2.filterMap Event.answer? = [.pushed true, .pushed true, .pushed false, .pushed true,
        .polled ⟨3, [.started .dit .zero, .key true .zero]⟩] ∧
      cut.2.filterMap Event.answer? = ((Direct.Polling.rest .standard).run 2 moves).2) ∧
    served.2 = [.pushed true, .pushed true, .pushed false,
        .polled ⟨2, [.started .dit .zero, .key true .zero]⟩, .pushed true, .polled ⟨1, []⟩] ∧
      served.2 = ((Direct.rest .standard).serveAll 2 tasks).2 := by
  intro edge moves tasks cut served
  obtain ⟨-, hcut, -, hserved⟩ := event_path_faithful .standard 3
  exact ⟨⟨by decide, by decide, (hcut moves).2.2.1⟩, by decide, (hserved tasks).1⟩

end Polling
end Iambic
