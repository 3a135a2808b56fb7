import LuaData.Format
import LuaData.Node.Build
import LuaData.Node.Walk
import LuaData.Proofs.Document.Acceptance
import LuaData.Proofs.Document.Drawn
import LuaData.Proofs.Document.FirstFault
import LuaData.Proofs.Format.Overrides
import LuaData.Proofs.Layout.Machine
import LuaData.Proofs.Layout.Render
import LuaData.Proofs.Node.Arrival
import LuaData.Proofs.Node.Depth
import LuaData.Proofs.Node.Fields
import LuaData.Proofs.Node.Limit
import LuaData.Proofs.Node.Malformed
import LuaData.Proofs.Node.Meaning
import LuaData.Proofs.Node.Names
import LuaData.Proofs.Node.ReadBack
import LuaData.Proofs.Node.Recognition
import LuaData.Proofs.Node.Replay
import LuaData.Proofs.Node.Rounds
import LuaData.Proofs.Node.Tables
import LuaData.Proofs.Node.Walk
import LuaData.Proofs.Node.Writable
import LuaData.Proofs.Number.Text
import LuaData.Proofs.Printer.Compact
import LuaData.Proofs.Printer.Plain
import LuaData.Proofs.Printer.Written
import LuaData.Proofs.Reader.Agreement
import LuaData.Proofs.Text.Closing
import LuaData.Proofs.Text.Escape
import LuaData.Proofs.Text.Json
