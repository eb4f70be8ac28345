import Iambic.Keying
import Iambic.Recorder
import Iambic.Rig
import Iambic.Sink
import Iambic.Single.Bits
import Iambic.Trace
import Iambic.Version
import Iambic.Proofs.Engine.Steps
import Iambic.Proofs.Engine.Soundness
import Iambic.Proofs.Engine.Words
import Iambic.Proofs.Engine.Succession
import Iambic.Proofs.Engine.Deadlines
import Iambic.Proofs.Engine.Release
import Iambic.Proofs.Engine.Modes
import Iambic.Proofs.Sampler.Replay
import Iambic.Proofs.Engine.Looks
import Iambic.Proofs.Sampler.Visits
import Iambic.Proofs.Sampler.History
import Iambic.Proofs.Rig.Delivery
import Iambic.Proofs.KeyLine.Levels
import Iambic.Proofs.Engine.Restart
import Iambic.Proofs.Station.Polls
import Iambic.Proofs.Engine.Shift
import Iambic.Proofs.Engine.Timeline
import Iambic.Proofs.Engine.WindowEnds
import Iambic.Proofs.Engine.Stretch
import Iambic.Proofs.Trace.Playback
import Iambic.Proofs.Recording.Intervals
import Iambic.Proofs.Keying.Presets
import Iambic.Proofs.Keying.Tables
import Iambic.Proofs.Timing.Formulas
import Iambic.Proofs.Timing.Monotone
import Iambic.Proofs.Timing.Overflow
import Iambic.Proofs.Preset.Names
import Iambic.Proofs.Engine.Passes
import Iambic.Proofs.Sink.FanOut
