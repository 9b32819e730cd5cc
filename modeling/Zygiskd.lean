import Zygiskd.Bytes
import Zygiskd.Stream
import Zygiskd.Mount.Table
import Zygiskd.Mount.Clean
import Zygiskd.Mount.Manager
import Zygiskd.Mount.Interleave
import Zygiskd.Mount.Children
import Zygiskd.Mount.Serial
import Zygiskd.Protocol
import Zygiskd.Cli
import Zygiskd.Utils
import Zygiskd.Text
