import FrameworkHacks.Library.Program
import FrameworkHacks.Library.Run
import FrameworkHacks.Library.Exec
import FrameworkHacks.Library.History
import FrameworkHacks.Library.Cost
import FrameworkHacks.Library.Ledger
import FrameworkHacks.Library.Memory
import FrameworkHacks.Library.Nor
import FrameworkHacks.Protocol
import FrameworkHacks.Transport.Ports
import FrameworkHacks.Transport.HostCommand
import FrameworkHacks.Transport.Mec
import FrameworkHacks.Transport.Azalea
import FrameworkHacks.Transport.Device
import FrameworkHacks.Transport.Exchange
import FrameworkHacks.Transport.Refinement
import FrameworkHacks.Transport.Transfer
import FrameworkHacks.Transport.Libraries
import FrameworkHacks.Transport.RoundTrip
import FrameworkHacks.Transport.Malformed
import FrameworkHacks.Transport.Integrity
import FrameworkHacks.Transport.Footprint
import FrameworkHacks.Transport.ReadMemory
import FrameworkHacks.Transport.Guards
import FrameworkHacks.Transport.Handshake
import FrameworkHacks.Transport.Waiting
import FrameworkHacks.Fmap
import FrameworkHacks.Library.Attempt
import FrameworkHacks.Library.Search
import FrameworkHacks.Library.Text
import FrameworkHacks.FmapBounds
import FrameworkHacks.ECTool.Services
import FrameworkHacks.ECTool.Flash
import FrameworkHacks.ECTool.FlashCommands
import FrameworkHacks.ECTool.Erase
import FrameworkHacks.ECTool.SlowErase
import FrameworkHacks.ECTool.Reading
import FrameworkHacks.ECTool.Writing
import FrameworkHacks.ECTool.Partition
import FrameworkHacks.ECTool.FWUpdate
import FrameworkHacks.ECTool.Selection
import FrameworkHacks.ECTool.Stages
import FrameworkHacks.ECTool.Confined
import FrameworkHacks.ECTool.Order
import FrameworkHacks.ECTool.Gates
import FrameworkHacks.ECTool.Flashed
import FrameworkHacks.ECTool.ECTool
import FrameworkHacks.ECTool.HandBack
import FrameworkHacks.ECTool.Dump
import FrameworkHacks.ECTool.Resources
import FrameworkHacks.ECTool.Released
import FrameworkHacks.ECTool.Board
import FrameworkHacks.ECTool.Parsing
import FrameworkHacks.ECTool.Readiness
import FrameworkHacks.ECTool.Console
import FrameworkHacks.ECTool.Printing
import FrameworkHacks.Null.ECNull
import FrameworkHacks.Null.Commands
import FrameworkHacks.Null.Calls
import FrameworkHacks.Null.Contract
import FrameworkHacks.Null.History
import FrameworkHacks.ECTool.FlashServices
import FrameworkHacks.Null.Reflash
import FrameworkHacks.Panic.Driver
import FrameworkHacks.Panic.Capture
import FrameworkHacks.Panic.Saved
import FrameworkHacks.Library.Interpret
import FrameworkHacks.Library.Session
import FrameworkHacks.Transport.CrosEC
import FrameworkHacks.Transport.AnyPorts
import FrameworkHacks.Transport.Firmware
import FrameworkHacks.ECTool.Main
import FrameworkHacks.ECTool.Calls
import FrameworkHacks.ECTool.Stack
import FrameworkHacks.ECTool.Hardware
import FrameworkHacks.ECTool.Drain
import FrameworkHacks.ECTool.Direct
import FrameworkHacks.ECTool.ReflashServices
import FrameworkHacks.Null.Tool
import FrameworkHacks.Null.Version
import FrameworkHacks.Null.Bench
import FrameworkHacks.ECTool.FlashFirmware
import FrameworkHacks.ECTool.Log
import FrameworkHacks.ECTool.Reflashing
import FrameworkHacks.ECTool.ReadBack
import FrameworkHacks.Discovery.Images
import FrameworkHacks.Discovery.Hardware
import FrameworkHacks.Discovery.ECTest
import FrameworkHacks.Drivers.EntryPoints
import FrameworkHacks.Drivers.Measured
