import Calculator.Main
import Calculator.Proofs.Places
import Calculator.Proofs.Lexing
import Calculator.Proofs.Spelling
import Calculator.Proofs.Grammar
import Calculator.Proofs.Following
import Calculator.Proofs.Expressions
import Calculator.Proofs.Nesting
import Calculator.Proofs.Acceptance
import Calculator.Proofs.Forests
import Calculator.Proofs.Groups
import Calculator.Proofs.Blame
import Calculator.Proofs.Respelling
import Calculator.Proofs.Munching
import Calculator.Proofs.Positions
import Calculator.Proofs.Bits
import Calculator.Proofs.Rounding
import Calculator.Proofs.Readback
import Calculator.Proofs.Finiteness
import Calculator.Proofs.Redisplay
import Calculator.Proofs.Reading
import Calculator.Proofs.Reports
import Calculator.Proofs.Presses
import Calculator.Proofs.Sessions
import Calculator.Proofs.Chaining
import Calculator.Proofs.Staleness
import Calculator.Proofs.Stopping
import Calculator.Proofs.Parentheses
import Calculator.Proofs.Scanning
import Calculator.Proofs.Finality
import Calculator.Proofs.Nearest
import Calculator.Proofs.Values
import Calculator.Proofs.Literals
import Calculator.Proofs.Grids
import Calculator.Proofs.Brevity
import Calculator.Proofs.Signs
import Calculator.Proofs.Numerals
import Calculator.Proofs.Domain
import Calculator.Proofs.Stacks
