import AccessLayer.Main
import AccessLayer.Proofs.Layer.Atomicity
import AccessLayer.Proofs.Layer.Containment
import AccessLayer.Proofs.Layer.EventPayloads
import AccessLayer.Proofs.Layer.Idempotence
import AccessLayer.Proofs.Layer.IndexNames
import AccessLayer.Proofs.Layer.ModuleLines
import AccessLayer.Proofs.Layer.Overlap
import AccessLayer.Proofs.Layer.Signatures
import AccessLayer.Proofs.Layer.StoredSettings
import AccessLayer.Proofs.Layer.TableCalls
import AccessLayer.Proofs.Query.AnnotationForms
import AccessLayer.Proofs.Query.AnnotationTypes
import AccessLayer.Proofs.Record.StructFields
import AccessLayer.Proofs.Record.ValueUse
import AccessLayer.Proofs.Surql.Brackets
import AccessLayer.Proofs.Surql.ClauseOrder
import AccessLayer.Proofs.Surql.DigitTokens
import AccessLayer.Proofs.Surql.ExactPlaces
import AccessLayer.Proofs.Surql.KindText
import AccessLayer.Proofs.Surql.ParseAppend
import AccessLayer.Proofs.Surql.QuotedNames
import AccessLayer.Proofs.Surql.Recasing
import AccessLayer.Proofs.Surql.RoundTrip
import AccessLayer.Proofs.Surql.StringTokens
import AccessLayer.Proofs.Text.StringLiterals
