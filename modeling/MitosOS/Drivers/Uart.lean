import MitosOS.Lib.Text

/-! What `Uart::write_str` sends down the serial line. -/
namespace MitosOS.Drivers
open MitosOS.Lib

/-- A line feed is sent as carriage return and line feed. -/
def uartWriteByte (b : BitVec 8) : List (BitVec 8) := if b = 0x0A then [0x0D, b] else [b]

def uartWriteStr (bytes : List (BitVec 8)) : List (BitVec 8) := bytes.flatMap uartWriteByte

end MitosOS.Drivers
