import Ipp.Foundation.Buf
import Ipp.Foundation.Utf8
import Ipp.Foundation.HashMap
import Ipp.Model.Tags
import Ipp.Value.BoundedString
import Ipp.Value.Codec
import Ipp.Value.Text
import Ipp.Value.Iterator
import Ipp.Attribute.Records
import Ipp.Attribute.Groups
import Ipp.Attribute.AttributesToBytes
import Ipp.Operation.Cups
