import SystemsRepository.BabyMalloc.Freeing
import SystemsRepository.KeyValueStore.Failures
import SystemsRepository.KeyValueStore.InputLines
import SystemsRepository.KeyValueStore.Isolation
import SystemsRepository.KeyValueStore.MapRefinement
import SystemsRepository.KeyValueStore.Reports
import SystemsRepository.KeyValueStore.RoundTrip
import SystemsRepository.ElfLoader.Translation
import SystemsRepository.ElfLoader.Validation
import SystemsRepository.ElfLoader.SegmentTable
import SystemsRepository.JsonParser.Bounds
import SystemsRepository.JsonParser.Buffering
import SystemsRepository.JsonParser.Derailing
import SystemsRepository.JsonParser.ExitStatus
import SystemsRepository.JsonParser.NumberTokens
import SystemsRepository.JsonParser.StringTokens
import SystemsRepository.Steal.Distribution
import SystemsRepository.Steal.Overwriting
import SystemsRepository.Steal.Reporting
import SystemsRepository.ToyShell.Executing
import SystemsRepository.ToyShell.TokenArray
import SystemsRepository.ToyShell.InputLines
import SystemsRepository.TcpChat.Lockstep
import SystemsRepository.CustomPrintf.Formats
import SystemsRepository.Hexdump.Decoding
import SystemsRepository.Mlfq.QueueRuns
import SystemsRepository.DynamicArray.LifeCycle
import SystemsRepository.Slumber.Slumber
import SystemsRepository.BabyMalloc.Dump
import SystemsRepository.BabyMalloc.Memory
import SystemsRepository.BabyMalloc.Nesting
import SystemsRepository.BabyMalloc.Objects
import SystemsRepository.ElfLoader.ProcessImage
import SystemsRepository.FileHandling.Reading
import SystemsRepository.Foundation.Descriptors
import SystemsRepository.Foundation.Interruption
import SystemsRepository.Foundation.Ownership
import SystemsRepository.Hexdump.CommandLine
import SystemsRepository.JsonParser.Provenance
import SystemsRepository.KeyValueStore.Session
import SystemsRepository.SimdAddition.AddValues
import SystemsRepository.Steal.Handles
import SystemsRepository.TcpChat.AcceptLoop
import SystemsRepository.TcpChat.Handing
import SystemsRepository.TcpChat.Isolation
import SystemsRepository.ToyShell.Plumbing
import SystemsRepository.ElfLoader.Resources
import SystemsRepository.Steal.Closing
import SystemsRepository.Foundation.Buffering
import SystemsRepository.ToyShell.LineByLine
