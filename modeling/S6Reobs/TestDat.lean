import S6Reobs.Drain
import S6Reobs.OutputThread

/-! What test.dat holds while the FAST threads run. -/

namespace S6Reobs.System

open OutputThread

end S6Reobs.System
