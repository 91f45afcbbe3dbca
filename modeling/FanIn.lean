import FanIn.Channel.Run
import FanIn.Channel.Session
import FanIn.Fuzzer.Session
import FanIn.Latch
import FanIn.Log.Session
import FanIn.Race
import FanIn.Tree.Run
import FanIn.Proofs.Channel.Unsubscription
import FanIn.Proofs.Tree.Lifetime
import FanIn.Proofs.Tree.Serial
import FanIn.Proofs.Tree.Settlement
import FanIn.Proofs.Tree.Isolation
import FanIn.Proofs.Tree.Phases
import FanIn.Proofs.Tree.Accounting
import FanIn.Proofs.Tree.Creation
import FanIn.Proofs.Tree.Outcomes
import FanIn.Proofs.Tree.Stranding
import FanIn.Proofs.Tree.Withholding
import FanIn.Proofs.Closing
import FanIn.Proofs.Tree.Inheritance
import FanIn.Proofs.Tree.Numbering
import FanIn.Proofs.Tree.Stretch
import FanIn.Proofs.Tree.Departure
import FanIn.Proofs.Tree.Branches
import FanIn.Proofs.Logging
import FanIn.Proofs.Wrapping
import FanIn.Proofs.Descriptions
import FanIn.Proofs.Delays
import FanIn.Proofs.Log.Streams
