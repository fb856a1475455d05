import RoadHierarchy.Main
import RoadHierarchy.Queue.Item
import RoadHierarchy.Proofs.Contraction.Distance
import RoadHierarchy.Proofs.Contraction.Query
import RoadHierarchy.Proofs.Contraction.Turns
import RoadHierarchy.Proofs.HopPath.Expansion
import RoadHierarchy.Proofs.HopPath.Keys
import RoadHierarchy.Proofs.HopPath.Greedy
import RoadHierarchy.Proofs.Contraction.Overflow
import RoadHierarchy.Proofs.Contraction.Parallel
import RoadHierarchy.Proofs.Contraction.Supersession
import RoadHierarchy.Proofs.Contraction.Unpacking
import RoadHierarchy.Proofs.Contraction.Encoding
import RoadHierarchy.Proofs.Contraction.Commitment
import RoadHierarchy.Proofs.Contraction.Completion
import RoadHierarchy.Proofs.Contraction.Depth
import RoadHierarchy.Proofs.Contraction.Ranking
import RoadHierarchy.Proofs.Contraction.History
import RoadHierarchy.Proofs.Contraction.Sharing
import RoadHierarchy.Proofs.Contraction.Discovery
import RoadHierarchy.Proofs.Contraction.Order
import RoadHierarchy.Proofs.Contraction.Tally
import RoadHierarchy.Proofs.Contraction.Necessity
import RoadHierarchy.Proofs.Contraction.Room
import RoadHierarchy.Proofs.Contraction.Replay
import RoadHierarchy.Proofs.Contraction.Priority
import RoadHierarchy.Proofs.Graph.Expansion
import RoadHierarchy.Proofs.Graph.Views
import RoadHierarchy.Proofs.Queue.History
