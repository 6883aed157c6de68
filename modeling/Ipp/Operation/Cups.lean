import Ipp.Value.BoundedString

/-!
# CUPS operations

`CupsDeletePrinter` holds the printer URI as an `IppString`, so building the
operation is the bounded-string conversion of the URI's text.  Turning an
operation into a request goes through `IppRequestResponse`, whose code is not
among the sources.
-/

namespace Ipp

/-- `CupsDeletePrinter`. -/
structure CupsDeletePrinter where
  printerUri : IppString

/-- `CupsDeletePrinter::new`. -/
def CupsDeletePrinter.new (printerUri : Uri) : Except IppParseError CupsDeletePrinter := do
  return ⟨← BoundedString.tryFromUri printerUri⟩

end Ipp
