import ParallelWatermark.Process.Loop
import ParallelWatermark.Process.Chain
import ParallelWatermark.Process.Farm
import ParallelWatermark.Process.Calls
import ParallelWatermark.Process.SharedQueue
import ParallelWatermark.Process.Scatter
import ParallelWatermark.Image
import ParallelWatermark.World
import ParallelWatermark.Sequential
import ParallelWatermark.Pipeline
import ParallelWatermark.Proof.Network.Support
import ParallelWatermark.Proof.Network.Outcome
import ParallelWatermark.Proof.Network.Complete
import ParallelWatermark.Proof.Network.Streams
import ParallelWatermark.Proof.Network.Limits
import ParallelWatermark.Proof.Network.FailingSaves
import ParallelWatermark.BoundedSource
import ParallelWatermark.Proof.Network.BoundedSource
import ParallelWatermark.Proof.Network.PopulateTask
import ParallelWatermark.PipelineNEW
import ParallelWatermark.Proof.Network.PipelineNEW
import ParallelWatermark.FastFlow
import ParallelWatermark.Proof.FastFlow.Farm
import ParallelWatermark.Buffer.Ranges
import ParallelWatermark.Proof.Image.Rows
import ParallelWatermark.Proof.FastFlow.Fused
import ParallelWatermark.Objects
import ParallelWatermark.Proof.Image.Samples
import ParallelWatermark.Process.Interleaving
import ParallelWatermark.Updates
import ParallelWatermark.Proof.Image.Orders
import ParallelWatermark.Accesses
import ParallelWatermark.Proof.Image.Bounds
import ParallelWatermark.BlockingQueue
import ParallelWatermark.Proof.BlockingQueue
import ParallelWatermark.BlockingQueue.Removal
import ParallelWatermark.Proof.BlockingQueue.Order
import ParallelWatermark.Process.Refinement
import ParallelWatermark.Process.Threads
import ParallelWatermark.BlockingQueue.Threads
import ParallelWatermark.Proof.BlockingQueue.Threads
import ParallelWatermark.Proof.BlockingQueue.Rank
import ParallelWatermark.CppWatermark
import ParallelWatermark.Proof.Network.CppWatermark
import ParallelWatermark.Proof.Network.Monitors
import ParallelWatermark.Proof.Network.Folder
import ParallelWatermark.Buffer.Strides
import ParallelWatermark.Arithmetic.Double
import ParallelWatermark.FastFlow.ParallelFor
import ParallelWatermark.Proof.FastFlow.ParallelFor.Table
import ParallelWatermark.Proof.FastFlow.ParallelFor.InitData
import ParallelWatermark.Proof.FastFlow.ParallelFor.InitDataStatic
import ParallelWatermark.Proof.FastFlow.ParallelFor.Setloop
import ParallelWatermark.FastFlow.ParallelFor.Passive
import ParallelWatermark.Proof.FastFlow.ParallelFor.Passive
import ParallelWatermark.Proof.FastFlow.ParallelFor.PassiveProgress
import ParallelWatermark.FastFlow.ParallelFor.Active
import ParallelWatermark.Proof.FastFlow.ParallelFor.Svc
import ParallelWatermark.Proof.FastFlow.ParallelFor.Active
import ParallelWatermark.Proof.FastFlow.ParallelFor.ActiveProgress
import ParallelWatermark.FastFlow.ParallelFor.Idx
import ParallelWatermark.Proof.FastFlow.ParallelFor.Idx
import ParallelWatermark.Proof.FastFlow.ParallelFor.Runs
import ParallelWatermark.Proof.FastFlow.ParallelFor.Grain
import ParallelWatermark.FastFlow.ProcessImage
import ParallelWatermark.Proof.FastFlow.ProcessImage
import ParallelWatermark.FastFlow.Farms
import ParallelWatermark.Proof.FastFlow.Farms
import ParallelWatermark.FastFlow.Buffer
import ParallelWatermark.Process.Circular
import ParallelWatermark.Proof.FastFlow.Buffer
