import DocStamp.Application
import DocStamp.Book.Basic
import DocStamp.Book.Context
import DocStamp.Book.Process
import DocStamp.Book.Read
import DocStamp.Book.Write
import DocStamp.Command.Arguments
import DocStamp.Command.Build
import DocStamp.Command.Failure
import DocStamp.Command.Preprocess
import DocStamp.Command.Render
import DocStamp.Command.Run
import DocStamp.Command.Show
import DocStamp.Command.Sources
import DocStamp.Config
import DocStamp.Decimal.Binary
import DocStamp.Decimal.Shortest
import DocStamp.DocumentName
import DocStamp.Files.Fault
import DocStamp.Files.Host
import DocStamp.Files.Session
import DocStamp.Files.Tree
import DocStamp.Glob.Match
import DocStamp.Glob.Pattern
import DocStamp.Json.Error
import DocStamp.Json.Number
import DocStamp.Json.Reader
import DocStamp.Json.Skip
import DocStamp.Json.Text
import DocStamp.Json.Write
import DocStamp.Labels
import DocStamp.Main
import DocStamp.Manifest
import DocStamp.Moment
import DocStamp.Path.Basic
import DocStamp.Path.Order
import DocStamp.Path.Place
import DocStamp.Placeholder
import DocStamp.Proofs.Application.Registry
import DocStamp.Proofs.Application.Settled
import DocStamp.Proofs.Book.Process
import DocStamp.Proofs.Book.RoundTrip
import DocStamp.Proofs.Command.Build
import DocStamp.Proofs.Command.Configure
import DocStamp.Proofs.Command.DocumentNames
import DocStamp.Proofs.Command.Overlap
import DocStamp.Proofs.Command.Placement
import DocStamp.Proofs.Command.Preprocess
import DocStamp.Proofs.Command.Rebuild
import DocStamp.Proofs.Command.RelativeName
import DocStamp.Proofs.Command.Render
import DocStamp.Proofs.Command.Run
import DocStamp.Proofs.Command.Show
import DocStamp.Proofs.Command.Sources
import DocStamp.Proofs.Command.Stopped
import DocStamp.Proofs.Command.Untouched
import DocStamp.Proofs.Files.Follow
import DocStamp.Proofs.Files.Frame
import DocStamp.Proofs.Files.Linked
import DocStamp.Proofs.Files.Operations
import DocStamp.Proofs.Files.Parents
import DocStamp.Proofs.Files.Plain
import DocStamp.Proofs.Files.View
import DocStamp.Proofs.Glob.Language
import DocStamp.Proofs.Glob.Search
import DocStamp.Proofs.Json.Accepted
import DocStamp.Proofs.Json.RoundTrip
import DocStamp.Proofs.Labels
import DocStamp.Proofs.Manifest.Comment
import DocStamp.Proofs.Manifest.Lookup
import DocStamp.Proofs.Manifest.RoundTrip
import DocStamp.Proofs.Path.Ancestors
import DocStamp.Proofs.Path.Canonical
import DocStamp.Proofs.Path.Clean
import DocStamp.Proofs.Path.Location
import DocStamp.Proofs.Path.Order
import DocStamp.Proofs.Path.Pieces
import DocStamp.Proofs.Placeholder
import DocStamp.Proofs.Settings.FieldByField
import DocStamp.Proofs.Settings.RoundTrip
import DocStamp.Proofs.Settings.Vacant
import DocStamp.Proofs.Text.Blank
import DocStamp.Proofs.Text.Replace
import DocStamp.Proofs.Xml.CharacterData
import DocStamp.Proofs.Xml.Content
import DocStamp.Proofs.Xml.Cursor
import DocStamp.Proofs.Xml.Document
import DocStamp.Proofs.Xml.Element
import DocStamp.Proofs.Xml.Front
import DocStamp.Proofs.Xml.Insertion
import DocStamp.Proofs.Xml.Local
import DocStamp.Proofs.Yaml.Cursor
import DocStamp.Proofs.Yaml.Document
import DocStamp.Proofs.Yaml.Events
import DocStamp.Proofs.Yaml.Literal
import DocStamp.Proofs.Yaml.Meaning
import DocStamp.Proofs.Yaml.Plain
import DocStamp.Proofs.Yaml.Quoted
import DocStamp.Proofs.Yaml.Reader
import DocStamp.Proofs.Yaml.Scanner
import DocStamp.Proofs.Yaml.Schema
import DocStamp.Proofs.Yaml.Steps
import DocStamp.Proofs.Yaml.Tokens
import DocStamp.Proofs.Yaml.Vacant
import DocStamp.Proofs.Yaml.Written
import DocStamp.Settings.Basic
import DocStamp.Settings.Read
import DocStamp.Settings.Write
import DocStamp.Text.Blank
import DocStamp.Text.Choice
import DocStamp.Text.Hidden
import DocStamp.Text.Quoted
import DocStamp.Text.Replace
import DocStamp.Xml.Chars
import DocStamp.Xml.Cursor
import DocStamp.Xml.Document
import DocStamp.Xml.Error
import DocStamp.Xml.Reference
import DocStamp.Xml.Tag
import DocStamp.Xml.Tree
import DocStamp.Yaml.Cursor
import DocStamp.Yaml.Decode
import DocStamp.Yaml.Error
import DocStamp.Yaml.Event
import DocStamp.Yaml.Event.Parse
import DocStamp.Yaml.Node
import DocStamp.Yaml.Scalar
import DocStamp.Yaml.Token
import DocStamp.Yaml.Token.Property
import DocStamp.Yaml.Token.Scalar
import DocStamp.Yaml.Token.Scan
import DocStamp.Yaml.Write
