import Dbsql.Core.Lts
import Dbsql.Core.SortedMap
import Dbsql.Core.LexOrder
import Dbsql.Core.WriteLog
import Dbsql.L1Encoding.Codes
import Dbsql.L1Encoding.Memcmp
import Dbsql.L1Encoding.RowidKey
import Dbsql.L1Encoding.Mem
import Dbsql.L1Encoding.Record
import Dbsql.L1Encoding.RealKey
import Dbsql.L1Encoding.IndexKey
import Dbsql.L1Encoding.Format
import Dbsql.L1Encoding.RealText
import Dbsql.L1Encoding.Printf
import Dbsql.L1Encoding.Radix
import Dbsql.L2Storage.Btree
import Dbsql.Core.DList
import Dbsql.L2Storage.Hash
import Dbsql.L2Storage.HashMap
import Dbsql.L3Vdbe.TableCursor
import Dbsql.L3Vdbe.NewRecno
import Dbsql.L3Vdbe.Recno
import Dbsql.L3Vdbe.IndexScan
import Dbsql.L3Vdbe.IdxPut
import Dbsql.L4Txn.Machine
import Dbsql.L4Txn.Steps
import Dbsql.L4Txn.TxnFlag
import Dbsql.L4Txn.CommitHook
import Dbsql.L4Txn.Atomicity
import Dbsql.Core.Block
import Dbsql.L3Vdbe.Value
import Dbsql.L5Codegen.WriteTxn
import Dbsql.L3Vdbe.Stack
import Dbsql.L3Vdbe.Column
import Dbsql.L5Codegen.Expr
import Dbsql.L5Codegen.ExprValue
import Dbsql.L5Codegen.ExprCode
import Dbsql.L5Codegen.ExprJump
import Dbsql.Core.Fresh
import Dbsql.L5Codegen.Select
import Dbsql.L5Codegen.Counters
import Dbsql.L5Codegen.Deliver
import Dbsql.L5Codegen.Limit
import Dbsql.Core.EraseCeil
import Dbsql.L5Codegen.SetOps
import Dbsql.Core.FirstBest
import Dbsql.L3Vdbe.NumericOrder
import Dbsql.L3Vdbe.Table
import Dbsql.L3Vdbe.Decimal
import Dbsql.L3Vdbe.Compare
import Dbsql.L5Codegen.MinMax
import Dbsql.L5Codegen.InTerm
import Dbsql.L5Codegen.InLoop
import Dbsql.L5Codegen.Names
import Dbsql.L5Codegen.Joins
import Dbsql.L5Parse.Tokenize
import Dbsql.L5Parse.CompleteStmt
import Dbsql.L5Parse.Scan
import Dbsql.L5Parse.Unquote
import Dbsql.L5Parse.QuoteFn
import Dbsql.L5Parse.IdChars
import Dbsql.L5Schema.Attach
import Dbsql.L5Schema.SignatureRun
import Dbsql.L5Schema.Signature
import Dbsql.Core.Secondary
import Dbsql.L3Vdbe.RowMachine
import Dbsql.L3Vdbe.IsUnique
import Dbsql.L5Codegen.RowCode
import Dbsql.L5Codegen.RowKey
import Dbsql.L5Codegen.RowDelete
import Dbsql.L5Codegen.RowChecks
import Dbsql.L5Codegen.RowUnique
import Dbsql.L5Codegen.RowStore
import Dbsql.L5Codegen.RowStep
import Dbsql.L3Vdbe.Arithmetic
import Dbsql.L3Vdbe.SortableOrder
import Dbsql.L3Vdbe.SortKey
import Dbsql.Core.BinSort
import Dbsql.L5Codegen.Sorter
import Dbsql.L3Vdbe.MakeKeyFrame
import Dbsql.L3Vdbe.KeyList
import Dbsql.Core.EscLines
import Dbsql.L3Vdbe.FileLines
import Dbsql.L3Vdbe.FileFields
import Dbsql.L3Vdbe.Aggregate
import Dbsql.L3Vdbe.ForceInt
import Dbsql.L5Codegen.RangeScan
import Dbsql.Core.Labels
import Dbsql.L5Codegen.Program
import Dbsql.L5Codegen.MakeReady
import Dbsql.Core.IndexChain
import Dbsql.L5Parse.Keywords
import Dbsql.Core.Wildcard
import Dbsql.L5Func.Chars
import Dbsql.L5Func.Like
import Dbsql.L5Func.Glob
import Dbsql.L5Func.Substr
import Dbsql.Core.Gregorian
import Dbsql.L5Func.Datetime
import Dbsql.L5Func.JulianDay
import Dbsql.Core.Chain
import Dbsql.L5Schema.UnlinkIndex
import Dbsql.L5Codegen.ExprTree
import Dbsql.L5Codegen.ExprCheck
import Dbsql.L5Codegen.ExprCompare
import Dbsql.L5Codegen.OrderBy
import Dbsql.Core.KeyOrder
import Dbsql.L5Codegen.SortingIndex
import Dbsql.L5Schema.DropCode
import Dbsql.L5Parse.CutText
import Dbsql.L5Schema.ViewText
import Dbsql.L5Schema.CreateStmt
import Dbsql.Core.Seats
import Dbsql.L5Codegen.WhereTerms
import Dbsql.L5Codegen.WhereTests
import Dbsql.Core.Depth
import Dbsql.L5Codegen.WhereCode
import Dbsql.L5Codegen.WhereDepth
import Dbsql.L5Codegen.Triggers
import Dbsql.Core.Brake
import Dbsql.L5Codegen.TriggerNest
import Dbsql.L5Codegen.UpdateSet
import Dbsql.L5Codegen.Between
import Dbsql.L5Schema.TriggerNames
import Dbsql.Core.Alloc
import Dbsql.L5Codegen.ParseTree
import Dbsql.L5Codegen.TreeCopy
import Dbsql.L5Schema.RefNormalize
import Dbsql.Core.Held
import Dbsql.L5Codegen.UpdateCursors
import Dbsql.L5Codegen.FirstRow
import Dbsql.L5Codegen.ScalarSelect
import Dbsql.Core.Reader
import Dbsql.L5Codegen.InsertSelect
import Dbsql.L3Vdbe.BusyRetry
import Dbsql.L3Vdbe.IdxIsNull
import Dbsql.L3Vdbe.IntText
import Dbsql.L5Codegen.ExprSplit
import Dbsql.Core.Probe
import Dbsql.L5Codegen.ResultSet
import Dbsql.L5Schema.CreateIndex
import Dbsql.L3Vdbe.AggFinalize
import Dbsql.L5Codegen.FindFunction
import Dbsql.L6Api.GetTable
import Dbsql.L5Codegen.CountDelivered
import Dbsql.L7Lemon.FirstSets
import Dbsql.L7Lemon.Report
import Dbsql.L7Lemon.Engine
import Dbsql.L7Lemon.Compress
import Dbsql.L7Lemon.MSort
import Dbsql.L7Lemon.Configs
import Dbsql.L7Lemon.GetState
import Dbsql.L7Lemon.FollowSets
import Dbsql.L7Lemon.Lalr
import Dbsql.L7Lemon.FindActions
import Dbsql.L7Lemon.Parse
