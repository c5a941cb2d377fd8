import ControlScript.Main
import ControlScript.Disk.Tree
import ControlScript.Cursor.Bytes
import ControlScript.Primitive
import ControlScript.Proofs.Agenda
import ControlScript.Proofs.Grammar.Script
import ControlScript.Proofs.Registration
import ControlScript.Proofs.Scan
import ControlScript.Proofs.Token
import ControlScript.Proofs.Numeral
import ControlScript.Proofs.Literal
import ControlScript.Proofs.Literal.Words
import ControlScript.Proofs.Reading.Variables
import ControlScript.Proofs.Reading.Keywords
import ControlScript.Proofs.Grammar.Extent
import ControlScript.Proofs.Reading.Statement
import ControlScript.Proofs.Reading
import ControlScript.Proofs.Acceptance
import ControlScript.Proofs.Binding
import ControlScript.Proofs.Grammar.Respelling
import ControlScript.Proofs.Layout
import ControlScript.Proofs.Rounding
import ControlScript.Proofs.Registration.Views
import ControlScript.Proofs.Nesting
import ControlScript.Proofs.Loops
import ControlScript.Proofs.Grammar.Exchange
import ControlScript.Proofs.Termination
import ControlScript.Proofs.Inlining
import ControlScript.Proofs.Canonical.Numbers
import ControlScript.Proofs.Canonical.Values
import ControlScript.Proofs.Reading.KeywordOrder
import ControlScript.Proofs.Canonical.Statements
import ControlScript.Proofs.Canonical
import ControlScript.Proofs.Growth
import ControlScript.Proofs.Visits
import ControlScript.Proofs.Canonical.Levels
import ControlScript.Proofs.Registration.Manifest
import ControlScript.Proofs.Canonical.Entry
import ControlScript.Proofs.Disk
import ControlScript.Proofs.Session
import ControlScript.Proofs.Runs
import ControlScript.Proofs.Cycles
import ControlScript.Proofs.Lines
import ControlScript.Proofs.Order
import ControlScript.Proofs.Positions
import ControlScript.Proofs.Rendering
import ControlScript.Proofs.Json
import ControlScript.Proofs.Registration.Names
import ControlScript.Proofs.Registration.Calls
import ControlScript.Proofs.Dump
import ControlScript.Proofs.Registration.Contents
import ControlScript.Proofs.Reading.Bodies
import ControlScript.Proofs.Reading.Shorthand
import ControlScript.Proofs.Reading.Defaults
import ControlScript.Proofs.Canonical.Blocks
import ControlScript.Proofs.Cursor.Bytes
import ControlScript.Proofs.Cursor.Primitives
import ControlScript.Proofs.Cursor.LineBreaks
