import WlMatrix.Sockets.Slice
import WlMatrix.Sockets.Msnp2pCommand
import WlMatrix.Sockets.FrameSpec
import WlMatrix.Sockets.ParseMessage
import WlMatrix.Sockets.Chunks
import WlMatrix.Utils.Emoji
import WlMatrix.Utils.EmojiOutput
import WlMatrix.Utils.EmojiRoundTrip
import WlMatrix.Shared.EndpointId
