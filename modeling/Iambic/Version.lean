/-! # The version of the keyer -/
namespace Iambic

def version : String := "0.2.0"

end Iambic
