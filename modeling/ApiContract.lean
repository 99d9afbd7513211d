import ApiContract.Assoc
import ApiContract.Coercion
import ApiContract.CommandLine.Arguments
import ApiContract.CommandLine.Run
import ApiContract.Config
import ApiContract.Config.Loading
import ApiContract.Contract.Basic
import ApiContract.Contract.Loading
import ApiContract.Failure
import ApiContract.Format.Address
import ApiContract.Format.Basic
import ApiContract.Format.Calendar
import ApiContract.Format.Resource
import ApiContract.Http.Method
import ApiContract.Json.Basic
import ApiContract.Json.Lexer
import ApiContract.Json.Number
import ApiContract.Json.Parser
import ApiContract.Json.Pointer
import ApiContract.Json.Printer
import ApiContract.Logging
import ApiContract.Main
import ApiContract.Media.ContentType
import ApiContract.Numeral.Binary64
import ApiContract.Numeral.Decimal
import ApiContract.Numeral.Power
import ApiContract.Numeral.Shortest
import ApiContract.Parameter.Definition
import ApiContract.Parameter.Directive
import ApiContract.Parameter.Location
import ApiContract.Pattern.Basic
import ApiContract.Pattern.Groups
import ApiContract.Pattern.Reader
import ApiContract.Proofs.Assoc.Ascending
import ApiContract.Proofs.Assoc.Related
import ApiContract.Proofs.Contract.Agreeing
import ApiContract.Proofs.Contract.Ordered
import ApiContract.Proofs.Failing
import ApiContract.Proofs.Json.Ordered
import ApiContract.Proofs.Json.Parsing
import ApiContract.Proofs.Json.Paths
import ApiContract.Proofs.Json.Sameness
import ApiContract.Proofs.Located
import ApiContract.Proofs.Media.Buckets
import ApiContract.Proofs.Media.Selection
import ApiContract.Proofs.Media.Spellings
import ApiContract.Proofs.Media.Written
import ApiContract.Proofs.Numeral.Canonical
import ApiContract.Proofs.Numeral.Decimal
import ApiContract.Proofs.Numeral.Layout
import ApiContract.Proofs.Numeral.Rounding
import ApiContract.Proofs.Numeral.Shortest
import ApiContract.Proofs.Parameter.Coercion
import ApiContract.Proofs.Parameter.Integers
import ApiContract.Proofs.Parameter.Leaves
import ApiContract.Proofs.Parameter.Reshaping
import ApiContract.Proofs.Pattern.Ends
import ApiContract.Proofs.Request.Apart
import ApiContract.Proofs.Request.Arrays
import ApiContract.Proofs.Request.BodyExpansion
import ApiContract.Proofs.Request.BodySchema
import ApiContract.Proofs.Request.ByReference
import ApiContract.Proofs.Request.Coercing
import ApiContract.Proofs.Request.Conjunction
import ApiContract.Proofs.Request.Declared
import ApiContract.Proofs.Request.DeclaredOnce
import ApiContract.Proofs.Request.Directives
import ApiContract.Proofs.Request.Document
import ApiContract.Proofs.Request.Fragment
import ApiContract.Proofs.Request.Frame
import ApiContract.Proofs.Request.HostReading
import ApiContract.Proofs.Request.Overriding
import ApiContract.Proofs.Request.Prepared
import ApiContract.Proofs.Request.RawValues
import ApiContract.Proofs.Request.Rejection
import ApiContract.Proofs.Request.Restated
import ApiContract.Proofs.Request.SharedBucket
import ApiContract.Proofs.Request.SignedCookies
import ApiContract.Proofs.Request.Stages
import ApiContract.Proofs.Request.UnknownKeys
import ApiContract.Proofs.Request.WriteBack
import ApiContract.Proofs.Response.Blame
import ApiContract.Proofs.Response.Decision
import ApiContract.Proofs.Response.Declared
import ApiContract.Proofs.Response.Document
import ApiContract.Proofs.Route.Base
import ApiContract.Proofs.Route.Captures
import ApiContract.Proofs.Route.Expressing
import ApiContract.Proofs.Route.Filling
import ApiContract.Proofs.Route.Flaws
import ApiContract.Proofs.Route.Indexing
import ApiContract.Proofs.Route.Listing
import ApiContract.Proofs.Route.Operations
import ApiContract.Proofs.Route.Parameters
import ApiContract.Proofs.Route.Precedence
import ApiContract.Proofs.Route.Restated
import ApiContract.Proofs.Route.Scanners
import ApiContract.Proofs.Schema.Below
import ApiContract.Proofs.Schema.Coercible
import ApiContract.Proofs.Schema.Components
import ApiContract.Proofs.Schema.Congruence
import ApiContract.Proofs.Schema.Copying
import ApiContract.Proofs.Schema.Counterparts
import ApiContract.Proofs.Schema.Following
import ApiContract.Proofs.Schema.Forgetting
import ApiContract.Proofs.Schema.Keywords
import ApiContract.Proofs.Schema.Linking
import ApiContract.Proofs.Schema.Located
import ApiContract.Proofs.Schema.Malformed
import ApiContract.Proofs.Schema.Metaschema
import ApiContract.Proofs.Schema.Nullable
import ApiContract.Proofs.Schema.Parts
import ApiContract.Proofs.Schema.Plain
import ApiContract.Proofs.Schema.References
import ApiContract.Proofs.Schema.Relinking
import ApiContract.Proofs.Schema.Resolving
import ApiContract.Proofs.Schema.Restating
import ApiContract.Proofs.Schema.Told
import ApiContract.Proofs.Schema.Unrequired
import ApiContract.Proofs.Schema.Within
import ApiContract.Proofs.Schema.Words
import ApiContract.Proofs.Store.Bounded
import ApiContract.Proofs.Store.Collision
import ApiContract.Proofs.Store.History
import ApiContract.Proofs.Store.Restated
import ApiContract.Proofs.Store.Sharing
import ApiContract.Proofs.Store.Transparency
import ApiContract.Proofs.Text.ByteOrder
import ApiContract.Proofs.Text.Utf8
import ApiContract.Proofs.Url.Escaping
import ApiContract.Proofs.Url.Form
import ApiContract.Proofs.Url.Query
import ApiContract.Proofs.Url.Reordering
import ApiContract.Proofs.Yaml.Keeping
import ApiContract.Proofs.Yaml.Keys
import ApiContract.Proofs.Yaml.WellFormed
import ApiContract.Request.Basic
import ApiContract.Request.Synthesis
import ApiContract.Request.Validation
import ApiContract.Response
import ApiContract.Route.Basic
import ApiContract.Route.Expression
import ApiContract.Route.Index
import ApiContract.Route.Table
import ApiContract.Route.Template
import ApiContract.Schema.Basic
import ApiContract.Schema.Compiled
import ApiContract.Schema.Compiler
import ApiContract.Schema.Judge
import ApiContract.Schema.Kind
import ApiContract.Schema.Metaschema
import ApiContract.Schema.Nullable
import ApiContract.Schema.Reading
import ApiContract.Schema.Violation
import ApiContract.Store
import ApiContract.Text.Digit
import ApiContract.Text.Shown
import ApiContract.Text.Split
import ApiContract.Text.Utf8
import ApiContract.Url.Percent
import ApiContract.Url.Query
import ApiContract.Url.Server
import ApiContract.Validator
import ApiContract.Yaml.Cursor
import ApiContract.Yaml.Folding
import ApiContract.Yaml.Lexer
import ApiContract.Yaml.Node
import ApiContract.Yaml.Reader
import ApiContract.Yaml.Scalar
import ApiContract.Yaml.Tag
import ApiContract.Yaml.Token
import ApiContract.Yaml.Tree
