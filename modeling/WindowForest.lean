import WindowForest.Config.Load
import WindowForest.Forest.Journal
import WindowForest.Hierarchy.Command
import WindowForest.Hierarchy.Query
import WindowForest.Proofs.Config.RoundTrip
import WindowForest.Proofs.Forest.Chronicle
import WindowForest.Proofs.Forest.Outline
import WindowForest.Proofs.Forest.Reversal
import WindowForest.Proofs.Forest.Traversals
import WindowForest.Proofs.Hierarchy.Assertions
import WindowForest.Proofs.Hierarchy.Bounds
import WindowForest.Proofs.Hierarchy.Commuting
import WindowForest.Proofs.Hierarchy.Countdown
import WindowForest.Proofs.Hierarchy.Inventory
import WindowForest.Proofs.Hierarchy.Lifespan
import WindowForest.Proofs.Hierarchy.OneShot
import WindowForest.Proofs.Hierarchy.Promises
import WindowForest.Proofs.Hierarchy.Reparenting
import WindowForest.Proofs.Hierarchy.Returning
import WindowForest.Proofs.Hierarchy.Shielding
import WindowForest.Proofs.Hierarchy.Succession
