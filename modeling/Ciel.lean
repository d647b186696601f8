import Ciel.Runtime.Channel.Fifo
import Ciel.Runtime.TaskGroup.Delivery
import Ciel.Runtime.Select.Settle
import Ciel.Types.InstanceNameInjective
import Ciel.Typeck.Affine
import Ciel.Runtime.Wakeup.NoLostWakeup
import Ciel.Typeck.AcceptedPatterns
import Ciel.Typeck.Capability.Answers
import Ciel.Typeck.Capability.Cache
import Ciel.Typeck.Capability.Termination
import Ciel.Mono.Expansive
import Ciel.Codegen.Literals
import Ciel.Runtime.Trampoline
import Ciel.Formatter.Format
import Ciel.Driver.Loader
import Ciel.Std.Json.Entries
import Ciel.Std.Json.RoundTrip
import Ciel.Types.Canonical
import Ciel.Types.Weakening
import Ciel.Types.UnifySound
import Ciel.Runtime.Resource.Transfer
import Ciel.Typeck.AssignedOnce
import Ciel.Mono.Layouts
import Ciel.Typeck.Capability.Derived
import Ciel.Typeck.FallThrough
import Ciel.Typeck.ReadonlyAffinity
import Ciel.Runtime.Resource.Shown
import Ciel.Mono.Alarm
import Ciel.Runtime.Actor
import Ciel.Types.ArrayRepr
import Ciel.Std.MapKey
