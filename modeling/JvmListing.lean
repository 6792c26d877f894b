import JvmListing.Access
import JvmListing.Assembly.Fault
import JvmListing.Assembly.LocalTable
import JvmListing.Assembly.Lowering
import JvmListing.Assembly.Member
import JvmListing.Assembly.SlotTable
import JvmListing.Constant
import JvmListing.Disassembly.LabelName
import JvmListing.Disassembly.Member
import JvmListing.Disassembly.Naming
import JvmListing.Handle
import JvmListing.Listing.Annot
import JvmListing.Listing.Basic
import JvmListing.Listing.Operation
import JvmListing.Listing.Position
import JvmListing.Listing.Stored
import JvmListing.Member.Annot
import JvmListing.Member.Basic
import JvmListing.Member.Insn
import JvmListing.Number.Binary
import JvmListing.Number.Decimal
import JvmListing.Number.Literal
import JvmListing.Opcode
import JvmListing.Proofs.Access
import JvmListing.Proofs.AnnotStorage
import JvmListing.Proofs.AnnotText
import JvmListing.Proofs.AnnotTrees
import JvmListing.Proofs.AnnotatedListings
import JvmListing.Proofs.Bodies
import JvmListing.Proofs.ClausePositions
import JvmListing.Proofs.Clauses
import JvmListing.Proofs.Descriptor
import JvmListing.Proofs.Digits
import JvmListing.Proofs.FieldText
import JvmListing.Proofs.Headers
import JvmListing.Proofs.LabelClosure
import JvmListing.Proofs.LabelNames
import JvmListing.Proofs.Lexemes
import JvmListing.Proofs.ListingText
import JvmListing.Proofs.LoneDefinitions
import JvmListing.Proofs.LooseText
import JvmListing.Proofs.Lowering
import JvmListing.Proofs.MaxLocals
import JvmListing.Proofs.Mnemonics
import JvmListing.Proofs.NumberText
import JvmListing.Proofs.Operands
import JvmListing.Proofs.Parts
import JvmListing.Proofs.Plain
import JvmListing.Proofs.Positions
import JvmListing.Proofs.ReadAnnots
import JvmListing.Proofs.ReadHeaders
import JvmListing.Proofs.ReadListings
import JvmListing.Proofs.ReadParts
import JvmListing.Proofs.ReadSpelled
import JvmListing.Proofs.Reassembly
import JvmListing.Proofs.RecordedTypes
import JvmListing.Proofs.Relisting
import JvmListing.Proofs.Renaming
import JvmListing.Proofs.Rereading
import JvmListing.Proofs.Rounding
import JvmListing.Proofs.Scans
import JvmListing.Proofs.SessionRuns
import JvmListing.Proofs.SlotBinding
import JvmListing.Proofs.SlotConsistency
import JvmListing.Proofs.SlotNames
import JvmListing.Proofs.SlotReplay
import JvmListing.Proofs.SlotTable
import JvmListing.Proofs.SourcePositions
import JvmListing.Proofs.Spelled
import JvmListing.Proofs.Tracking
import JvmListing.Proofs.VariableRanges
import JvmListing.Proofs.WideSlots
import JvmListing.Reading.Argument
import JvmListing.Reading.Clause
import JvmListing.Reading.Construct
import JvmListing.Reading.Cursor
import JvmListing.Reading.Fault
import JvmListing.Reading.Lexeme
import JvmListing.Reading.Meaning
import JvmListing.Reading.Operand
import JvmListing.Reading.Part
import JvmListing.Reading.Scan
import JvmListing.Session
import JvmListing.Text.Blank
import JvmListing.Text.LetterCase
import JvmListing.Text.Quoted
import JvmListing.Ty.Basic
import JvmListing.Ty.Descriptor
import JvmListing.Writing.Argument
import JvmListing.Writing.Listing
import JvmListing.Proofs.UnmatchedText
import JvmListing.Proofs.ClosedListings
import JvmListing.Proofs.HandlePlaces
import JvmListing.Proofs.NumericOperands
import JvmListing.Proofs.OperandTexts
import JvmListing.Proofs.InstructionOrigins
import JvmListing.Proofs.DescriptorReaders
import JvmListing.Proofs.IntegerLiterals
import JvmListing.Proofs.SlotCalls
import JvmListing.Proofs.StringLiterals
import JvmListing.Proofs.LabelOrder
