import McpToolkit.Adapter.Arguments
import McpToolkit.Adapter.Configuration
import McpToolkit.Adapter.Containers
import McpToolkit.Adapter.Encoded
import McpToolkit.Adapter.Idle
import McpToolkit.Adapter.Injection
import McpToolkit.Adapter.Peers
import McpToolkit.Adapter.Responses
import McpToolkit.Adapter.Results
import McpToolkit.Adapter.Rules
import McpToolkit.Adapter.Run
import McpToolkit.Adapter.Standing
import McpToolkit.Adapter.Whitespace
import McpToolkit.Auth.Access
import McpToolkit.Auth.Decode
import McpToolkit.Auth.Identity
import McpToolkit.Auth.Lockout
import McpToolkit.Base.Utf8
import McpToolkit.Execution.Audit
import McpToolkit.Execution.Monitor
import McpToolkit.Execution.Timeouts
import McpToolkit.Json.Language
import McpToolkit.Json.View
import McpToolkit.Path.Escapes
import McpToolkit.Path.Within
import McpToolkit.Queue.Waiting
import McpToolkit.Rate.Windows
import McpToolkit.Response.Clean
import McpToolkit.Response.Delivered
import McpToolkit.Response.Escape
import McpToolkit.Response.Hidden
import McpToolkit.Response.Paths
import McpToolkit.Response.Size
import McpToolkit.Response.Utf8
import McpToolkit.Session.Ids
import McpToolkit.Session.Purge
import McpToolkit.Validation.Shell
import McpToolkit.Validation.Strict
