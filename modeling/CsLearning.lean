import CsLearning.Chan.Release
import CsLearning.Chan.Wakeup
import CsLearning.Chan.SimpleWakeup
import CsLearning.Chan.Refinement
import CsLearning.Chan.Drain
import CsLearning.Chan.CvT
import CsLearning.DsAlgo.Huffman
import CsLearning.DsAlgo.MaxHeapOrder
import CsLearning.DsAlgo.MaxHeapAccess
import CsLearning.DsAlgo.BST
import CsLearning.DsAlgo.DoubleLink
import CsLearning.DsAlgo.SingleLink
import CsLearning.DsAlgo.Kmp
import CsLearning.DsAlgo.LRUCapacity
import CsLearning.Code.HeapSort
import CsLearning.Code.ShellSort
import CsLearning.Code.MSDRadixSort
import CsLearning.Code.SelectionSort
import CsLearning.Code.MaxSubseqSum
import CsLearning.Code.ResizableArray
import CsLearning.Code.ThreadPoolWakeup
import CsLearning.Python.MysqlTestFile
import CsLearning.Python.MysqlCompare
import CsLearning.Compiler.CalculatorEval
import CsLearning.LeetCode.TreeCodec
import CsLearning.LeetCode.BuildTree
import CsLearning.LeetCode.RecoverFromPreorder
import CsLearning.LeetCode.RecoverTree
import CsLearning.LeetCode.WildcardMatching
import CsLearning.LeetCode.EditDistance
import CsLearning.LeetCode.LongestValidParentheses
import CsLearning.LeetCode.NextPermutation
import CsLearning.LeetCode.MultiplyStrings
import CsLearning.LeetCode.GenerateTrees
import CsLearning.DsAlgo.HashSet
import CsLearning.DsAlgo.HashMap
import CsLearning.DsAlgo.MergeSortStable
import CsLearning.DsAlgo.MorrisTraversal
import CsLearning.LeetCode.SearchRotated
import CsLearning.LeetCode.KthSmallest
import CsLearning.LeetCode.FourSum
import CsLearning.LeetCode.ThreeSum
import CsLearning.LeetCode.InterleavingString
import CsLearning.LeetCode.LongestPalindrome
import CsLearning.LeetCode.PatternMatching
import CsLearning.LeetCode.CourseSchedule
import CsLearning.LeetCode.NQueens
import CsLearning.LeetCode.SurroundedRegions
import CsLearning.LeetCode.WordBreak
import CsLearning.LeetCode.ReSpace
import CsLearning.LeetCode.PermuteUnique
import CsLearning.LeetCode.CombinationSum
import CsLearning.LeetCode.Cooldown
import CsLearning.LeetCode.MaxPathSum
import CsLearning.LeetCode.HouseRobber
import CsLearning.LeetCode.ReverseKGroup
import CsLearning.LeetCode.FlattenTree
import CsLearning.LeetCode.SortedListToBST
