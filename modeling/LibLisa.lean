import LibLisa.Instr.Covers
import LibLisa.Enumeration.OutOfSequence
import LibLisa.Enumeration.Tunnel
import LibLisa.Smt.CacheRun
import LibLisa.Semantics.Combinators
import LibLisa.Semantics.Convert
import LibLisa.Encoding.Coverage
import LibLisa.Encoding.DataflowSet
import LibLisa.Compare.GroupExact
import LibLisa.Compare.SplitExact
import LibLisa.Observer.QueueSafe
import LibLisa.Synth.BitmapMcsCovers
import LibLisa.Instr.TreeEffects
import LibLisa.Instr.NextMatching
import LibLisa.Instr.Extended
import LibLisa.Utils.BitmapOps
import LibLisa.Utils.BitmapRuns
import LibLisa.State.JitSimple
import LibLisa.State.Arcs
import LibLisa.Synth.PerfectMapping
import LibLisa.Synth.WriteOrder
import LibLisa.Utils.DeltaVec
import LibLisa.Semantics.Deposit
