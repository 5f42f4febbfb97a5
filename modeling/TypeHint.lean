import TypeHint.CommandLine.Arguments
import TypeHint.CommandLine.Run
import TypeHint.DocComment
import TypeHint.Error
import TypeHint.Event
import TypeHint.Hierarchy
import TypeHint.Hint
import TypeHint.Hint.Meaning
import TypeHint.Json
import TypeHint.Json.Numeral
import TypeHint.Json.Reader
import TypeHint.Json.Token
import TypeHint.Main
import TypeHint.Name
import TypeHint.Order
import TypeHint.Primitive
import TypeHint.Session
import TypeHint.Symbol
import TypeHint.Symbol.Error
import TypeHint.Symbol.Imports
import TypeHint.Symbol.Manifest
import TypeHint.Symbol.Members
import TypeHint.Symbol.Table
import TypeHint.Text.Blank
import TypeHint.Text.Pieces
import TypeHint.Text.Quoted
import TypeHint.Traced
import TypeHint.Ty
import TypeHint.Ty.Assignable
import TypeHint.Ty.Unite
import TypeHint.Value
import TypeHint.Value.Check
import TypeHint.Value.Json
import TypeHint.Proofs.Answers
import TypeHint.Proofs.Ancestors
import TypeHint.Proofs.Fits
import TypeHint.Proofs.ValueSoundness
import TypeHint.Proofs.Canonical
import TypeHint.Proofs.Preorder
import TypeHint.Proofs.Split
import TypeHint.Proofs.Names
import TypeHint.Proofs.Equality
import TypeHint.Proofs.UnionMeaning
import TypeHint.Proofs.ByteOrder
import TypeHint.Proofs.Occurrences
import TypeHint.Proofs.Join
import TypeHint.Proofs.UpperBound
import TypeHint.Proofs.Blank
import TypeHint.Proofs.Parts
import TypeHint.Proofs.Grammar
import TypeHint.Proofs.Reading
import TypeHint.Proofs.RoundTrip
import TypeHint.Proofs.Respelling
import TypeHint.Proofs.LoadedNames
import TypeHint.Proofs.Subtypes
import TypeHint.Proofs.Refusals
import TypeHint.Proofs.Validity
import TypeHint.Proofs.Overriding
import TypeHint.Proofs.HintEvents
import TypeHint.Proofs.Questions
import TypeHint.Proofs.MemberTypes
import TypeHint.Proofs.Growth
import TypeHint.Proofs.Classified
import TypeHint.Proofs.Faces
import TypeHint.Proofs.Registration
import TypeHint.Proofs.Leaves
import TypeHint.Proofs.Substitution
import TypeHint.Proofs.Listings
import TypeHint.Proofs.ParentChain
import TypeHint.Proofs.Decoration
import TypeHint.Proofs.TagText
import TypeHint.Proofs.TagSequence
import TypeHint.Proofs.DecimalKeys
import TypeHint.Proofs.JsonValues
import TypeHint.Proofs.Namesakes
import TypeHint.Proofs.RelativeNames
