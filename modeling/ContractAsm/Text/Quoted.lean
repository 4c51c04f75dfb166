-- SUMMARY: Texts between quotes, with escapes for what cannot be shown.
import ContractAsm.Text.Half
import ContractAsm.Text.Printable

/-!
# Quoted text

A text between quotes, with escapes for what cannot be shown. The quotes are single ones, unless
the text holds a single quote and no double quote.
-/

namespace ContractAsm.Text

/-- A character as it stands between the given quotes. -/
def escapeChar [Platform] (quote c : Char) : Text :=
  if c = quote ∨ c = '\\' then ['\\', c]
  else if c = '\n' then ['\\', 'n']
  else if c = '\r' then ['\\', 'r']
  else if c = '\t' then ['\\', 't']
  else if isPrintable c then [c]
  else escapeCode (code c)

/-- The quote that surrounds a text. -/
def quoteFor (t : Text) : Char :=
  if '\'' ∈ t ∧ '"' ∉ t then '"' else '\''

def quoted [Platform] (t : Text) : Text :=
  let quote := quoteFor t
  quote :: t.flatMap (escapeChar quote) ++ [quote]

end ContractAsm.Text
