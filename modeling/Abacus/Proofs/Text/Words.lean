import Abacus.Text.Blank
import Mathlib.Data.List.DropRight

namespace Abacus.Text

end Abacus.Text
