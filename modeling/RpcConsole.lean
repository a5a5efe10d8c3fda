import RpcConsole.Main
import RpcConsole.Schema.Canonical
import RpcConsole.Proofs.Call.Engine
import RpcConsole.Proofs.Call.Envelope
import RpcConsole.Proofs.Console.Listing
import RpcConsole.Proofs.Load.Descent
import RpcConsole.Proofs.Load.Fates
import RpcConsole.Proofs.Load.Imports
import RpcConsole.Proofs.Load.Linking
import RpcConsole.Proofs.Load.Verdict
import RpcConsole.Proofs.Load.Repeats
import RpcConsole.Proofs.Message.Canonical
import RpcConsole.Proofs.Message.Integers
import RpcConsole.Proofs.Message.Mismatch
import RpcConsole.Proofs.Message.Nesting
import RpcConsole.Proofs.Message.Padded
import RpcConsole.Proofs.Message.Template
import RpcConsole.Proofs.Message.TextRoundTrip
import RpcConsole.Proofs.Message.WireRoundTrip
import RpcConsole.Proofs.Service.Addressing
import RpcConsole.Proofs.Store.Places
import RpcConsole.Proofs.Text.Position
