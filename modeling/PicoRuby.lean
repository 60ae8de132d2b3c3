import PicoRuby.Shared.Runs
import PicoRuby.Shared.Linked
import PicoRuby.Shared.Timeline
import PicoRuby.Task.Scheduler
import PicoRuby.Task.ListModel
import PicoRuby.Task.Placement
import PicoRuby.Task.Transitions
import PicoRuby.Task.WellFormed
import PicoRuby.Task.Refinement
import PicoRuby.Task.QueueInvariant
import PicoRuby.Task.Preemption
import PicoRuby.Task.DispatchOrder
import PicoRuby.Task.SleepCall
import PicoRuby.Task.SleepTiming
import PicoRuby.Task.Effects
import PicoRuby.Task.JoinRelease
import PicoRuby.Task.ExceptionIsolation
import PicoRuby.Task.SuspendResume
import PicoRuby.Task.Priorities
import PicoRuby.Shared.Placing
import PicoRuby.Task.ReadyQueue
import PicoRuby.Task.Yielding
import PicoRuby.Shared.Cursor
import PicoRuby.Shared.Results
import PicoRuby.Shared.Hash
import PicoRuby.Json.Value
import PicoRuby.Json.Parser
import PicoRuby.Json.Syntax
import PicoRuby.Json.Completeness
import PicoRuby.Json.Soundness
import PicoRuby.Json.Denotation
import PicoRuby.Json.Conformance
import PicoRuby.Json.RoundTrip
import PicoRuby.Json.Digger
import PicoRuby.Json.DiggerScan
import PicoRuby.Json.DiggerAgrees
import PicoRuby.Codec.Base64
import PicoRuby.Jwt.Decoder
import PicoRuby.Jwt.RoundTrip
import PicoRuby.Jwt.Verification
import PicoRuby.Shared.Ring
import PicoRuby.Uart.RingBuffer
import PicoRuby.Uart.Session
import PicoRuby.Shared.Paths
import PicoRuby.Vfs.Volumes
import PicoRuby.Vfs.Routing
import PicoRuby.Vfs.Fat
import PicoRuby.Vfs.Sanitize
import PicoRuby.Vfs.Chdir
import PicoRuby.Shell.Cd
import PicoRuby.Require.Kernel
import PicoRuby.Require.Semantics
import PicoRuby.Require.Failures
import PicoRuby.Irq.EventQueue
import PicoRuby.Irq.Process
import PicoRuby.Irq.Instance
import PicoRuby.Irq.Registrations
import PicoRuby.Psg.Packets
import PicoRuby.Psg.Mml
import PicoRuby.Psg.Reduction
import PicoRuby.Shared.Merge
import PicoRuby.Psg.CompileMulti
import PicoRuby.Psg.Driver
import PicoRuby.Shared.Bits
import PicoRuby.Ble.Advertising
import PicoRuby.Ble.Central
import PicoRuby.Ble.HandleDecoding
import PicoRuby.Ble.GattClient
import PicoRuby.Ble.Discovery
import PicoRuby.Ble.DiscoveryOutcome
import PicoRuby.Shared.Records
import PicoRuby.Ble.GattDatabase
import PicoRuby.Ble.GattProfile
import PicoRuby.Ble.GattBuild
import PicoRuby.Ble.GattWellFormed
import PicoRuby.Psg.Prs
import PicoRuby.Psg.PrsPlayback
import PicoRuby.Net.Tcp
import PicoRuby.Net.TcpSend
import PicoRuby.Psg.Engine
import PicoRuby.Psg.Tracks
import PicoRuby.Psg.DriverCalls
import PicoRuby.Psg.EnvelopeShapes
import PicoRuby.Psg.PcmRing
import PicoRuby.Vram.Drawing
import PicoRuby.Vram.Pages
import PicoRuby.Vram.Refinement
import PicoRuby.Vram.Dirty
import PicoRuby.Shared.RubyArray
import PicoRuby.Keyboard.Layout
import PicoRuby.Keyboard.Placement
import PicoRuby.Keyboard.Positions
import PicoRuby.Keyboard.Scan
import PicoRuby.Keyboard.Layers
import PicoRuby.Keyboard.Momentary
import PicoRuby.Keyboard.Settling
import PicoRuby.Via.Keycodes
import PicoRuby.Via.Buffer
import PicoRuby.Via.Saving
import PicoRuby.Via.BufferLoops
import PicoRuby.Via.RoundTrip
import PicoRuby.Via.Sync
import PicoRuby.Shared.Objects
import PicoRuby.Editor.Buffer
import PicoRuby.Editor.Refinement
import PicoRuby.Editor.Frame
import PicoRuby.Editor.Sharing
import PicoRuby.Editor.Validity
import PicoRuby.Editor.Vim
import PicoRuby.Editor.Unsaved
import PicoRuby.Editor.History
import PicoRuby.Yaml.Parser
import PicoRuby.Yaml.Scalars
import PicoRuby.Yaml.Lines
import PicoRuby.Yaml.Representation
import PicoRuby.Yaml.Blocks
import PicoRuby.Yaml.RoundTrip
import PicoRuby.Codec.RoundTrip
import PicoRuby.Wifi.Config
import PicoRuby.Wifi.RoundTrip
import PicoRuby.Sqlite.Methods
import PicoRuby.Sqlite.Contract
import PicoRuby.Console.Terminal
import PicoRuby.Console.Discipline
import PicoRuby.PrkRgb.Keys
import PicoRuby.PrkRgb.Sync
import PicoRuby.Shared.Search
import PicoRuby.Vfs.File
import PicoRuby.Vfs.Lines
import PicoRuby.Vfs.FatSeek
import PicoRuby.Vfs.Unmount
import PicoRuby.Editor.Files
import PicoRuby.Json.DiggerTotal
import PicoRuby.Shared.Output
import PicoRuby.Shared.Crc
import PicoRuby.Shared.Brackets
import PicoRuby.Codec.Rejection
import PicoRuby.Codec.Base64Mrubyc
import PicoRuby.Codec.Base16
import PicoRuby.Codec.Crc
import PicoRuby.Irq.Debounce
import PicoRuby.Psg.Skimming
import PicoRuby.Psg.Termination
import PicoRuby.Psg.Commands
import PicoRuby.Psg.NoteLengths
import PicoRuby.Psg.Loops
import PicoRuby.Psg.SampleArithmetic
import PicoRuby.Shared.Tour
import PicoRuby.Shared.Signal
import PicoRuby.Shared.LineEnds
import PicoRuby.Psg.Triangle
import PicoRuby.RotaryEncoder.Callback
import PicoRuby.RotaryEncoder.Counting
import PicoRuby.Debounce.Resolve
import PicoRuby.Debounce.PerKey
import PicoRuby.Debounce.PerRow
import PicoRuby.Keyboard.Repush
import PicoRuby.Vram.Lines
import PicoRuby.Ble.ShortUuid
import PicoRuby.Ble.AdvertisingRoundTrip
import PicoRuby.Http.Response
import PicoRuby.Http.RoundTrip
import PicoRuby.Time.IntegerArgument
import PicoRuby.Time.Numerals
import PicoRuby.Shinonome.Font
import PicoRuby.Shinonome.Bounds
import PicoRuby.Shinonome.Scaling
import PicoRuby.Shell.SystemFiles
import PicoRuby.Console.Input
import PicoRuby.Net.Udp
import PicoRuby.Net.UdpSend
import PicoRuby.PrkRgb.Pixels
import PicoRuby.PrkRgb.Frames
import PicoRuby.PitchDetector.Bounds
import PicoRuby.PitchDetector.Detect
import PicoRuby.Hcsr04.DistanceCm
import PicoRuby.NumericExt.Modulo
import PicoRuby.Rapicco.Parser
import PicoRuby.Rapicco.Deck
import PicoRuby.Rapicco.Navigation
import PicoRuby.Rapicco.Blocks
import PicoRuby.Machine.Signals
import PicoRuby.Shinonome.Search
import PicoRuby.Vfs.SectorCount
import PicoRuby.PosixIo.Stream
import PicoRuby.PosixIo.Refinement
import PicoRuby.PosixIo.Runs
import PicoRuby.Keyboard.Split
import PicoRuby.Keyboard.Rotations
import PicoRuby.Ble.Mailbox
import PicoRuby.Vram.Ssd1306
import PicoRuby.Fat.Window
import PicoRuby.Fat.Entry
import PicoRuby.Fat.Chain
import PicoRuby.Fat.Files
import PicoRuby.Fat.Mount
import PicoRuby.Fat.Drives
import PicoRuby.Fat.Runs
