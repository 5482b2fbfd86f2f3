import IronQuery.Proof.TreeParse
import IronQuery.Proof.IntegerOperand
import IronQuery.Proof.PrefixOperand
import IronQuery.Proof.BinaryOperand
import IronQuery.Proof.ExistsOperand
import IronQuery.Proof.ValueLists
import IronQuery.Proof.SetOnce
import IronQuery.Proof.InsertWidth
import IronQuery.Proof.FromItems
import IronQuery.Proof.SameShape
import IronQuery.Proof.OperatorName
import IronQuery.Proof.CaseRuns
import IronQuery.Proof.FailedSetters
import IronQuery.Proof.CteNames
import IronQuery.Proof.QuotedCodec
import IronQuery.Proof.IdentifierGrammar
import IronQuery.Proof.NodeSize
import IronQuery.Proof.CsvJoin
import IronQuery.Proof.AliasChain
import IronQuery.Proof.JoinQualifier
import IronQuery.Proof.SubquerySites
import IronQuery.Proof.ListClauses
import IronQuery.Proof.RawOperand
import IronQuery.Proof.ChangeRead
import IronQuery.Proof.QueryRead
import IronQuery.Proof.WithFormats
