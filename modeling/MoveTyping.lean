import MoveTyping.Ty.Unify
import MoveTyping.Ty.Abilities
import MoveTyping.Text.Blank
import MoveTyping.Literal
import MoveTyping.Operator
import MoveTyping.Catalog.Json
import MoveTyping.Catalog.Bundled
import MoveTyping.Catalog.Search
import MoveTyping.Settings
import MoveTyping.Tree.Build
import MoveTyping.Scope.Qualify
import MoveTyping.Session
import MoveTyping.Proofs.Cache.Interleaving
import MoveTyping.Proofs.Session.Removal
import MoveTyping.Proofs.Session.Cycles
import MoveTyping.Proofs.Session.Spelling
import MoveTyping.Proofs.Session.Repeat
import MoveTyping.Proofs.Catalog.Annotation
import MoveTyping.Proofs.Signature.Render
import MoveTyping.Proofs.Cache.Bound
import MoveTyping.Proofs.Catalog.Listed
import MoveTyping.Proofs.Scope.Exports
import MoveTyping.Proofs.Scope.Lexical
import MoveTyping.Proofs.Infer.Bounds
import MoveTyping.Proofs.Infer.Pack
import MoveTyping.Proofs.Infer.Machine
import MoveTyping.Proofs.Infer.Dependencies
import MoveTyping.Proofs.Session.Canonical
import MoveTyping.Proofs.Cache.Recency
import MoveTyping.Proofs.Address.Value
import MoveTyping.Proofs.Ty.Assignable
import MoveTyping.Proofs.Ty.Compose
import MoveTyping.Proofs.Ty.Unify
import MoveTyping.Proofs.Interner
import MoveTyping.Proofs.Tree.Ancestry
import MoveTyping.Proofs.Infer.Destructure
import MoveTyping.Proofs.Signature.Positions
import MoveTyping.Proofs.Signature.Param
import MoveTyping.Proofs.Infer.Adapt
