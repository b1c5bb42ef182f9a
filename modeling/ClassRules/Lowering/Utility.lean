import ClassRules.ItemList
import ClassRules.Lowering.Progress

/-!
# Utilities

`@utility name size, ...` becomes a rule with one class for each item: `.u-name`, or `.u-sm-name`
with the short form of the size.

## What this module delivers

- `utilityItems`: the items of a utility and the words of each.
- `utilitySelector`, `utilityWarnings`: the selector of an item, and the warnings about it.
- `lowerUtility`, `lowerUtilities`: one at-rule, and all of them in document order.
-/

set_option autoImplicit false

namespace ClassRules.Lowering

/-- The reason to stop at a utility without items. -/
def noNames : String := "No names supplied to @utility"

/-- The warning about an item of more than two words. -/
def tooManyParameters : String := "Too many parameters for @utility"

/-- The warning about a size that is not known. -/
def unknownVariant (variant : String) : String := "Unknown variant: " ++ variant

/-- The selector of an item with the given words, the first of which is the name and the second the
size. A size that is not known leaves its separator behind. -/
def utilitySelector (words : List String) : String :=
  let size := match words[1]? with
    | some variant => (utilityVariant? variant).getD "" ++ "-"
    | none => ""
  ".u-" ++ size ++ words.head?.getD ""

/-- The warnings about an item with the given words. -/
def utilityWarnings (words : List String) : List String :=
  (if 2 < words.length then [tooManyParameters] else []) ++
    match words[1]? with
    | some variant => if (utilityVariant? variant).isNone then [unknownVariant variant] else []
    | none => []

/-- The items of a utility's params, each cut into words. -/
def utilityItems (params : String) : List (List String) :=
  (splitComma params).map splitSpace

/-- Puts a rule in the place of a utility. One that is not attached any more stays. -/
def lowerUtility (p : Progress) (utility : NodeId) : Except Stopped Progress :=
  let items := utilityItems (p.sheet.params utility)
  if !p.sheet.isAttached utility then .ok p
  else if items.isEmpty then p.stop utility noNames
  else do
    let p ← (items.flatMap utilityWarnings).foldlM (·.warn utility ·) p
    let (rule, p) := p.createRule (joinComma (items.map utilitySelector)) utility
    let p ← p.moveChildren utility rule
    return (p.replaceWith utility rule).count fun c => { c with utilities := c.utilities + 1 }

/-- Lowers the utilities of the sheet. -/
def lowerUtilities (cx : Context) (p : Progress) : Except Stopped Progress :=
  (cx.find p.sheet Sheet.root .utility).foldlM lowerUtility p

end ClassRules.Lowering
