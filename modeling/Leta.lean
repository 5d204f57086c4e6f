import Leta.Core.ExactMatchIndex
import Leta.Core.Tokenizer
import Leta.Core.Types
import Leta.Foundation.Allocation
import Leta.Foundation.Bytes
import Leta.Foundation.Calendar
import Leta.Foundation.Costs
import Leta.Foundation.DateTime
import Leta.Foundation.Linearization
import Leta.Foundation.Logged
import Leta.Foundation.Machine
import Leta.Foundation.RangeFor
import Leta.Foundation.Regex
import Leta.Foundation.Repeats
import Leta.Foundation.Utf8
import Leta.Foundation.Words
import Leta.Http.ApiSpec
import Leta.Http.Dispatch
import Leta.Http.DocumentParser
import Leta.Http.Handlers
import Leta.Http.Headers
import Leta.Http.IndexParser
import Leta.Http.InterruptedWorkers
import Leta.Http.Interruptions
import Leta.Http.Library
import Leta.Http.ParserLogs
import Leta.Http.Responses
import Leta.Http.Routes
import Leta.Http.Routing
import Leta.Http.Server
import Leta.Http.Threads
import Leta.Http.Workers
import Leta.Json.Arrays
import Leta.Json.Lexeme
import Leta.Json.Numbers
import Leta.Json.Scan
import Leta.Json.Schema
import Leta.Json.Strings
import Leta.Json.Syntax
import Leta.Json.Tokens
import Leta.Json.Unambiguity
import Leta.Json.Writing
import Leta.Ondemand.Api
import Leta.Ondemand.Loops
import Leta.Ondemand.Reference
import Leta.Ondemand.Traces
import Leta.Storage.Repository
import Leta.Verification.Acknowledgement
import Leta.Verification.Api
import Leta.Verification.Batches
import Leta.Verification.Catalogue
import Leta.Verification.Concurrency
import Leta.Verification.Description
import Leta.Verification.Determinacy
import Leta.Verification.DocumentParser
import Leta.Verification.Durability
import Leta.Verification.Errors
import Leta.Verification.ExactMatchIndex
import Leta.Verification.Footprint
import Leta.Verification.Handlers
import Leta.Verification.IndexParser
import Leta.Verification.Marks
import Leta.Verification.Nesting
import Leta.Verification.Objects
import Leta.Verification.OutOfMemory
import Leta.Verification.Postings
import Leta.Verification.RequestIds
import Leta.Verification.Requests
import Leta.Verification.Responses
import Leta.Verification.Restoration
import Leta.Verification.Routing
import Leta.Verification.Server
import Leta.Verification.Strings
import Leta.Verification.Survival
import Leta.Verification.Timestamps
import Leta.Verification.Tokenizer
import Leta.Verification.Turns
import Leta.Verification.Unescaping
import Leta.Verification.Validation
import Leta.Verification.Workers
import Leta.Verification.Writing
