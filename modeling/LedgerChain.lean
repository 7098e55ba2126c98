import LedgerChain.Config
import LedgerChain.Crypto.Standard
import LedgerChain.Document.Values
import LedgerChain.Environment
import LedgerChain.Node.Author
import LedgerChain.Proofs.Tree.Lineage
import LedgerChain.Proofs.Tree.Descendants
import LedgerChain.Proofs.Tree.Finalize
import LedgerChain.Proofs.ForkChoice.Best
import LedgerChain.Proofs.ForkChoice.Consider
import LedgerChain.Proofs.ForkChoice.Replay
import LedgerChain.Proofs.Wire
import LedgerChain.Proofs.Wire.Formats
import LedgerChain.Proofs.Sealing.Sound
import LedgerChain.Proofs.Execution.Calls
import LedgerChain.Proofs.Execution.Select
import LedgerChain.Proofs.Validation
import LedgerChain.Proofs.Node.Decide
import LedgerChain.Proofs.Node.Run
import LedgerChain.Proofs.Store.Index
import LedgerChain.Proofs.Store.Journal
import LedgerChain.Proofs.Node.AtBest
import LedgerChain.Proofs.Node.Storage
import LedgerChain.Proofs.Node.Start
import LedgerChain.Proofs.Lifetime.Basic
import LedgerChain.Proofs.Crypto.Transparent
import LedgerChain.Proofs.Node.Session
import LedgerChain.Proofs.Lifetime.Session
import LedgerChain.Proofs.Lifetime.BestTip
import LedgerChain.Proofs.Node.Finality
import LedgerChain.Proofs.Lifetime.Finality
import LedgerChain.Proofs.Tree.Part
import LedgerChain.Proofs.Archive.Basic
import LedgerChain.Proofs.Archive.Live
import LedgerChain.Proofs.Node.Kept
import LedgerChain.Proofs.Node.Restore
import LedgerChain.Proofs.Node.Restart
import LedgerChain.Proofs.Lifetime.Archive
import LedgerChain.Proofs.Lifetime.Validity
import LedgerChain.Proofs.Node.Recovery
import LedgerChain.Proofs.Lifetime.Recovery
import LedgerChain.Proofs.OrphanPool
import LedgerChain.Proofs.Node.Gathering
import LedgerChain.Proofs.Node.Release
import LedgerChain.Proofs.Node.Convergence
import LedgerChain.Proofs.Lifetime.Convergence
import LedgerChain.Proofs.Tree.Reorg
import LedgerChain.Proofs.Node.Pointers
import LedgerChain.Proofs.Lifetime.Pointers
import LedgerChain.Proofs.Node.Forgetful
import LedgerChain.Proofs.Node.Memory
import LedgerChain.Proofs.Node.Recall
import LedgerChain.Proofs.Lifetime.Memory
import LedgerChain.Proofs.Node.Orphans
import LedgerChain.Proofs.Node.Cascade
import LedgerChain.Proofs.Node.Acts
import LedgerChain.Proofs.Node.Verdicts
import LedgerChain.Proofs.Node.Stranded
import LedgerChain.Proofs.Lifetime.Orphans
import LedgerChain.Proofs.Node.Joining
import LedgerChain.Proofs.Lifetime.Joining
import LedgerChain.Proofs.Sealing.Cancel
import LedgerChain.Proofs.Node.Alone
import LedgerChain.Proofs.Node.Canonical
import LedgerChain.Proofs.Lifetime.Authoring
import LedgerChain.Proofs.Lifetime.FailedImports
import LedgerChain.Proofs.Mempool
import LedgerChain.Proofs.Node.News
import LedgerChain.Proofs.Node.Making
import LedgerChain.Proofs.Lifetime.InterruptedAuthors
import LedgerChain.Proofs.Node.Agreement
import LedgerChain.Proofs.Config
import LedgerChain.Proofs.Lifetime.Acceptance
import LedgerChain.Proofs.Tree.Walk
import LedgerChain.Proofs.Tree.InPlace
import LedgerChain.Proofs.Tree.Representation
import LedgerChain.Proofs.Node.Departed
import LedgerChain.Proofs.Lifetime.Moments
import LedgerChain.Proofs.Lifetime.Idempotence
import LedgerChain.Proofs.Execution.Verdicts
import LedgerChain.Proofs.State.Lookups
import LedgerChain.Proofs.State.Totals
import LedgerChain.Proofs.Execution.Supply
import LedgerChain.Proofs.Lifetime.Supply
import LedgerChain.Proofs.State.Form
import LedgerChain.Proofs.State.Binding
import LedgerChain.Proofs.Binding
import LedgerChain.Proofs.Execution.WellFormed
import LedgerChain.Proofs.Lifetime.States
import LedgerChain.Proofs.Mempool.PriorityList
import LedgerChain.Proofs.Mempool.Refinement
import LedgerChain.Proofs.Execution.Ledger
import LedgerChain.Proofs.Sealing.Turns
import LedgerChain.Proofs.Sealing.Division
import LedgerChain.Proofs.Tree.Paths
import LedgerChain.Proofs.Tree.Search
import LedgerChain.Proofs.Tree.Splitting
import LedgerChain.Proofs.Tree.Switch
import LedgerChain.Proofs.Mempool.Revision
import LedgerChain.Proofs.Node.PoolFollows
import LedgerChain.Proofs.Lifetime.PoolUpdates
import LedgerChain.Proofs.Lifetime.FailedAuthors
import LedgerChain.Proofs.Execution.Independence
import LedgerChain.Proofs.Lifetime.UnacceptedImports
import LedgerChain.Proofs.Lifetime.Releases
import LedgerChain.Proofs.Tree.Weights
import LedgerChain.Proofs.Node.Weights
import LedgerChain.Proofs.Lifetime.PublishedWeights
import LedgerChain.Proofs.OrphanPool.Queue
import LedgerChain.Proofs.Sealing.Search
import LedgerChain.Proofs.Store.Calls
import LedgerChain.Proofs.Bytes.Buffer
import LedgerChain.Proofs.Lifetime.Widths
