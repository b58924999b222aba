import ReedSolomon.Decoder.Shortest
import ReedSolomon.Main.Guarantees
import ReedSolomon.Main.Settings
import ReedSolomon.Main.Bounds
import ReedSolomon.Hardware.Encoder
import ReedSolomon.Hardware.Bench
import ReedSolomon.Package.Agreement
import ReedSolomon.Package.TestBench
import ReedSolomon.Hardware.TestBench
import ReedSolomon.Package.Generator
import ReedSolomon.Main.Injection
import ReedSolomon.Main.Operands
import ReedSolomon.Hardware.Verdict
import ReedSolomon.Hardware.Transfers
import ReedSolomon.Hardware.Monitor
import ReedSolomon.Main.Exits
import ReedSolomon.Main.Blocks
import ReedSolomon.Package.Galois
import ReedSolomon.Hardware.PacketEnds
import ReedSolomon.Hardware.AnyDevice
import ReedSolomon.Hardware.EndToEnd
import ReedSolomon.Main.Stream
import ReedSolomon.Main.Program
import ReedSolomon.Package.Injection
import ReedSolomon.Hardware.Draws
