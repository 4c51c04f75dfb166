import ContractAsm.Main
import ContractAsm.Proofs.ProgramCode
import ContractAsm.Proofs.StringLiteral
import ContractAsm.Tool.Assemble
import ContractAsm.Tool.Format
import ContractAsm.Tool.Overview
import ContractAsm.Tool.SourceFile
import ContractAsm.Proofs.JsonEquality
import ContractAsm.Proofs.Source
import ContractAsm.Proofs.Reading
import ContractAsm.Proofs.Scoping
import ContractAsm.Proofs.Rewording
import ContractAsm.Proofs.StatementLine
import ContractAsm.Proofs.Relocation
import ContractAsm.Proofs.Bytecode
import ContractAsm.Proofs.Layout
import ContractAsm.Proofs.Numbering
import ContractAsm.Proofs.Comment
import ContractAsm.Proofs.JsonObject
import ContractAsm.Proofs.Session
import ContractAsm.Proofs.Settings
import ContractAsm.Proofs.CheckedReference
import ContractAsm.Proofs.DebugOffset
import ContractAsm.Proofs.LeadingMnemonic
import ContractAsm.Proofs.GluedOperand
import ContractAsm.Proofs.SymbolScan
import ContractAsm.Proofs.SymbolStore
import ContractAsm.Proofs.Margin
import ContractAsm.Proofs.FailedRequest
import ContractAsm.Proofs.ErrorColumn
import ContractAsm.Proofs.Finding
import ContractAsm.Proofs.QuotePair
import ContractAsm.Proofs.Script
import ContractAsm.Proofs.FileSystem
import ContractAsm.Proofs.Charset
import ContractAsm.Proofs.FormatTool
import ContractAsm.Proofs.AssembleTool
import ContractAsm.Proofs.CopiedLine
import ContractAsm.Proofs.StringDigits
import ContractAsm.Proofs.Numeral
import ContractAsm.Proofs.JsonText
import ContractAsm.Proofs.Directive
