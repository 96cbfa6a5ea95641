import Smtrat.Mcsat.FM.Completeness
import Smtrat.BV.Blasting
import Smtrat.Modules.OriginHistory
import Smtrat.Solver.Objectives
import Smtrat.SAT.PassedRun
import Smtrat.SAT.Refutation
import Smtrat.SAT.ReceivedRun
import Smtrat.Modules.Synchronisation
import Smtrat.QE.FourierMotzkinCorrect
import Smtrat.Modules.MCBReplacements
import Smtrat.Mcsat.Arithmetic.FindAssignment
import Smtrat.Mcsat.Trail.Synchronised
import Smtrat.CAD.Projection.Runs
import Smtrat.VS.EliminateRun
import Smtrat.Mcsat.Vs.Explanation
import Smtrat.ICE.Soundness
import Smtrat.PFE.Soundness
import Smtrat.STrop.Runs
import Smtrat.UnsatCores.ModelExclusion
import Smtrat.UnionFind.Checks
import Smtrat.Curry.Runs
import Smtrat.UFCegar.Runs
import Smtrat.FPP.Runs
import Smtrat.ICP.Runs
import Smtrat.LRA.BoundRemoval
import Smtrat.PBPP.Normalizer
import Smtrat.VS.Splitting
import Smtrat.VS.Products
import Smtrat.Datastructures.RankedUnionFind
import Smtrat.Mcsat.Vs.ImplicationChain
import Smtrat.Mcsat.Icp.IntervalPropagation
import Smtrat.LRA.StoredRows
import Smtrat.LRA.Decision
import Smtrat.SAT.LazyPropagation
