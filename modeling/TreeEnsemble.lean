import TreeEnsemble.Model.Dump
import TreeEnsemble.Predictor.Batch
import TreeEnsemble.Predictor.Session
import TreeEnsemble.Proofs.Arena.Cells
import TreeEnsemble.Proofs.Binding.Atomicity
import TreeEnsemble.Proofs.Comparison
import TreeEnsemble.Proofs.Draft.Missing
import TreeEnsemble.Proofs.Forest.Defects
import TreeEnsemble.Proofs.Forest.Pushes
import TreeEnsemble.Proofs.Model.Stripped
import TreeEnsemble.Proofs.Predictor.Agreement
import TreeEnsemble.Proofs.Predictor.Dependence
import TreeEnsemble.Proofs.Predictor.Groups
import TreeEnsemble.Proofs.Predictor.Preserved
import TreeEnsemble.Proofs.Predictor.Restored
import TreeEnsemble.Proofs.Predictor.Safety
import TreeEnsemble.Proofs.Predictor.Session
import TreeEnsemble.Proofs.Predictor.Shards
import TreeEnsemble.Proofs.Predictor.Sparse
import TreeEnsemble.Proofs.Sample.Forest
import TreeEnsemble.Proofs.Slot
import TreeEnsemble.Proofs.Threshold.Embedding
import TreeEnsemble.Proofs.Tree.Counting
import TreeEnsemble.Proofs.Tree.Missing
