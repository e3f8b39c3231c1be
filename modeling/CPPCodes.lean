import CPPCodes.Lib.Rhombus
import CPPCodes.Lib.Transition
import CPPCodes.Hex.Draw
import CPPCodes.Hex.Session
import CPPCodes.Rocksfs.Tree
import CPPCodes.Lib.Memory
import CPPCodes.Lib.Namespace
import CPPCodes.Rocksfs.Blocks
import CPPCodes.Rocksfs.Lifetime
import CPPCodes.Rocksfs.Consistent
import CPPCodes.Rocksfs.Failure
import CPPCodes.Rocksfs.Contents
import CPPCodes.Lib.IntervalMap
import CPPCodes.Cities.Parser
import CPPCodes.Cities.Leftovers
import CPPCodes.Cities.Reload
import CPPCodes.Cities.Benchmark
import CPPCodes.Lib.Interleave
import CPPCodes.Dedup.Pieces
import CPPCodes.Hex.Path
import CPPCodes.Rocksfs.Described
import CPPCodes.Dates.Difference
import CPPCodes.Dedup.Window
import CPPCodes.Dedup.Device
import CPPCodes.Aio.Once
import CPPCodes.Aio.Main
import CPPCodes.Threads.Preference
import CPPCodes.Threads.Program
import CPPCodes.Hex.Calls
import CPPCodes.Hex.Inert
import CPPCodes.Hex.Law
import CPPCodes.Lib.Sorting
import CPPCodes.Hex.Order
import CPPCodes.Lib.Words
import CPPCodes.Cities.Postfix
import CPPCodes.Cities.Spacing
import CPPCodes.Cities.Insertion
import CPPCodes.Rocksfs.Range
import CPPCodes.Rocksfs.Canonical
import CPPCodes.Rocksfs.Listing
import CPPCodes.Rocksfs.Initialised
import CPPCodes.Dedup.Rule
import CPPCodes.Dedup.Settings
import CPPCodes.Debts.CashFlow
import CPPCodes.Dedup.BSW
import CPPCodes.Lib.Buckets
import CPPCodes.Dedup.FixedSizeChunking
import CPPCodes.Dedup.Stats
import CPPCodes.Dedup.SafeRead
import CPPCodes.Strings.RobinKarp
import CPPCodes.Lib.Iteration
import CPPCodes.Batches.Iterator
import CPPCodes.Dates.Order
import CPPCodes.Lib.Change
import CPPCodes.Lib.Loop
import CPPCodes.Lib.Grid
import CPPCodes.Coins.Table
import CPPCodes.Coins.DPCoin
import CPPCodes.Coins.Predecessors
import CPPCodes.Lib.Signed
import CPPCodes.Lib.Loads
import CPPCodes.Knapsack.Table
import CPPCodes.Knapsack.Optimal
import CPPCodes.Lib.Selections
import CPPCodes.Subsets.SubsetSum
import CPPCodes.Subsets.Enumeration
import CPPCodes.Subsets.SumOfSubset
import CPPCodes.Lib.Heap
import CPPCodes.Heaps.PriorityQueue
import CPPCodes.Heaps.Operations
import CPPCodes.Heaps.Drain
import CPPCodes.Lib.Lasso
import CPPCodes.Lists.NodeList
import CPPCodes.Lists.CheckCircle
import CPPCodes.Lists.Destroy
import CPPCodes.Lists.LinkList
import CPPCodes.Calculator.Interpretor
import CPPCodes.Calculator.Expression
import CPPCodes.Calculator.Rejection
import CPPCodes.Calculator.Session
import CPPCodes.Lib.Pivot
import CPPCodes.DivideConquer.Partition
import CPPCodes.DivideConquer.QuickSelect
import CPPCodes.DivideConquer.QuickSort
import CPPCodes.DivideConquer.QuickSortTemplate
import CPPCodes.Lib.Inversions
import CPPCodes.Stacks.SortStack
import CPPCodes.Primes.Prime1
import CPPCodes.Primes.Prime1Main
import CPPCodes.Primes.Prime2
import CPPCodes.Primes.Prime1Old
import CPPCodes.Lib.Sieve
import CPPCodes.Lib.SearchTree
import CPPCodes.Lib.CompleteTree
import CPPCodes.Trees.BinaryTree
import CPPCodes.Trees.Inorder
import CPPCodes.Trees.Insert
import CPPCodes.Trees.SearchTree
import CPPCodes.Trees.CreateBalanceTree
import CPPCodes.Trees.Destroy
import CPPCodes.Trees.Shape
import CPPCodes.Lib.Arrangements
import CPPCodes.Primes.BasicSieve
import CPPCodes.Ranges.NumRange
import CPPCodes.Rocksfs.BlockCount
import CPPCodes.Rocksfs.Digests
import CPPCodes.Stacks.TowerOfHanoi
import CPPCodes.Strings.Anagram
import CPPCodes.Strings.RobinKarpHashUser
import CPPCodes.Strings.IsRotation
import CPPCodes.Strings.Permutation
import CPPCodes.Strings.RemoveDuplicate
import CPPCodes.Strings.Unique
import CPPCodes.Strings.Reverse
import CPPCodes.Strings.ReplaceSpace
import CPPCodes.Lib.Blockwise
import CPPCodes.Lib.Outcome
import CPPCodes.Lib.Scanner
import CPPCodes.Lib.Settlement
import CPPCodes.Lib.ShiftReduce
import CPPCodes.Serialize.Tokens
import CPPCodes.Serialize.Grammar
import CPPCodes.Serialize.Parser
import CPPCodes.Serialize.FrontEnd
import CPPCodes.Rocksfs.Leaks
import CPPCodes.Rocksfs.Restart
import CPPCodes.Sha1.Standard
import CPPCodes.Sha1.Context
import CPPCodes.Sha1.Block
import CPPCodes.Sha1.Calls
