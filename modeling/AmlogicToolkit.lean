import AmlogicToolkit.Lib.Bytes
import AmlogicToolkit.Lib.Crc
import AmlogicToolkit.Lib.Extents
import AmlogicToolkit.Lib.Faults
import AmlogicToolkit.Lib.Links
import AmlogicToolkit.Lib.Results
import AmlogicToolkit.Lib.Stdio
import AmlogicToolkit.Simg.Format
import AmlogicToolkit.Simg.Crc32
import AmlogicToolkit.Simg.BackedBlock
import AmlogicToolkit.Simg.OutputFile
import AmlogicToolkit.Simg.Words
import AmlogicToolkit.Simg.BlockMap
import AmlogicToolkit.Simg.Move
import AmlogicToolkit.Simg.Queue
import AmlogicToolkit.Simg.Sparse
import AmlogicToolkit.Simg.Adds
import AmlogicToolkit.Simg.Chains
import AmlogicToolkit.Simg.SparseRead
import AmlogicToolkit.Simg.Records
import AmlogicToolkit.Simg.Import
import AmlogicToolkit.Simg.ChunkMap
import AmlogicToolkit.Simg.Programs
import AmlogicToolkit.Simg.Failures
import AmlogicToolkit.Simg.NormalWriter
import AmlogicToolkit.Simg.ChunkWriter
import AmlogicToolkit.Simg.WholeBlocks
import AmlogicToolkit.Simg.Expand
import AmlogicToolkit.Simg.SparseWriter
import AmlogicToolkit.Simg.SparseImage
import AmlogicToolkit.Simg.NeverAborts
import AmlogicToolkit.Simg.Split
import AmlogicToolkit.Simg.Step
import AmlogicToolkit.Simg.Runs
import AmlogicToolkit.Simg.Sizes
import AmlogicToolkit.Simg.Contents
import AmlogicToolkit.Simg.ReadRaw
import AmlogicToolkit.Simg.RoundTrip
import AmlogicToolkit.Simg.LastUsed
import AmlogicToolkit.Simg.Resparse
import AmlogicToolkit.Simg.Partition
import AmlogicToolkit.Simg.SizeLimit
import AmlogicToolkit.Simg.LenEstimate
import AmlogicToolkit.Simg.DryRun
import AmlogicToolkit.Simg.Emit
import AmlogicToolkit.Simg.Written
import AmlogicToolkit.Simg.Consistent
import AmlogicToolkit.Simg.Formats
import AmlogicToolkit.Simg.Checksum
import AmlogicToolkit.Simg.Append
import AmlogicToolkit.Boot.Header
import AmlogicToolkit.Boot.Image
import AmlogicToolkit.Boot.Config
import AmlogicToolkit.Boot.Programs
import AmlogicToolkit.Boot.Layout
import AmlogicToolkit.Boot.Extract
import AmlogicToolkit.Boot.Pack
import AmlogicToolkit.Boot.Update
import AmlogicToolkit.Boot.Bounds
import AmlogicToolkit.Boot.ConfigText
import AmlogicToolkit.Boot.ConfigEntry
import AmlogicToolkit.Boot.ConfigRoundTrip
import AmlogicToolkit.Boot.Workflow
import AmlogicToolkit.Boot.WriteBounds
import AmlogicToolkit.Package.Extractor
import AmlogicToolkit.Lib.Cells
import AmlogicToolkit.Lib.Simulation
import AmlogicToolkit.Simg.Memory
import AmlogicToolkit.Simg.Machine
import AmlogicToolkit.Simg.BackEnds
import AmlogicToolkit.Simg.Callbacks
import AmlogicToolkit.Simg.Chunks
import AmlogicToolkit.Simg.Dump
import AmlogicToolkit.Simg.Shown
import AmlogicToolkit.Simg.Layers
import AmlogicToolkit.Simg.NormalForm
import AmlogicToolkit.Simg.OnePiece
import AmlogicToolkit.Lib.Dialogue
import AmlogicToolkit.Flash.Shell
import AmlogicToolkit.Flash.Script
import AmlogicToolkit.Flash.Commands
import AmlogicToolkit.Flash.Plan
import AmlogicToolkit.Flash.Gate
