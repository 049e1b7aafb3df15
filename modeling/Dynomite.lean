import Dynomite.Mbuf
import Dynomite.Msg
import Dynomite.Pool
import Dynomite.Timeout
import Dynomite.Send
import Dynomite.SendRun
import Dynomite.Recv
import Dynomite.RecvInv
import Dynomite.ParseLoop
import Dynomite.RecvBytes
import Dynomite.Cipher
import Dynomite.Split
import Dynomite.Cursor
import Dynomite.Groups
import Dynomite.GroupLaws
import Dynomite.GroupRun
import Dynomite.Handoff
import Dynomite.Worker
import Dynomite.RecvLength
