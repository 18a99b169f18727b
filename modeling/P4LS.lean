import P4LS.Unit.Queries
import P4LS.Unit.Offsets
import P4LS.Unit.ArgumentBuffer
import P4LS.Lexer.Tracking
import P4LS.Lexer.Strings
import P4LS.Lexer.Comments
import P4LS.Lexer.Widths
import P4LS.Lexer.Separators
import P4LS.Lexer.Literals
import P4LS.Lexer.Annotations
import P4LS.Lexer.EndOfInput
import P4LS.Protocol.Uri
import P4LS.Protocol.Encoding
import P4LS.Protocol.CapabilityEncoding
import P4LS.Server.Echo
import P4LS.Server.Arguments
import P4LS.Server.Session
import P4LS.Server.Contexts
import P4LS.Server.Interruptions
import P4LS.Server.Exit
import P4LS.Client.SnippetEdits
import P4LS.Slex.Preprocessor
import P4LS.Server.Conversation
