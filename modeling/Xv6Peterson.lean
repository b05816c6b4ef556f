import Xv6Peterson.Transition.Run
import Xv6Peterson.Transition.Lock
import Xv6Peterson.Tree.HeapIndex
import Xv6Peterson.Word.Signed
import Xv6Peterson.Kernel.PetersonLock
import Xv6Peterson.Kernel.Machine
import Xv6Peterson.Kernel.LockTable
import Xv6Peterson.Kernel.Execute
import Xv6Peterson.Peterson.Protocol
import Xv6Peterson.Peterson.Client
import Xv6Peterson.Peterson.Pair
import Xv6Peterson.Peterson.Bypass
import Xv6Peterson.Tournament.Library
import Xv6Peterson.Tournament.Exclusion
import Xv6Peterson.Tournament.Fairness
import Xv6Peterson.Tournament.Create
import Xv6Peterson.Ptest.Program
import Xv6Peterson.Ptest.Runs
import Xv6Peterson.Transition.Fair
import Xv6Peterson.Ptest.Termination
import Xv6Peterson.Tournament.Liveness
import Xv6Peterson.Tournament.Main
import Xv6Peterson.Tournament.Program
import Xv6Peterson.Tournament.Command
